import Mathlib.Data.List.Induction

/-!
# Traces whose entries are justified by the entries before them

`Justified J l` : every entry `a` of `l`, with the entries `pre` before it, has `J pre a`.
A trace that grows at its end stays justified when each new entry is
(`Justified.append_singleton`, `Justified.append`).

`Precedes p q l` : an entry with `p` stands in `l` before any with `q`. The trace may grow
after it (`Precedes.append`).
-/

variable {α : Type*}

/-- Every entry of `l` is justified by the entries before it. -/
def Justified (J : List α → α → Prop) (l : List α) : Prop :=
  ∀ pre a post, l = pre ++ a :: post → J pre a

namespace Justified

variable {J : List α → α → Prop} {l : List α}

theorem nil : Justified J [] := by
  intro pre a post h
  simp at h

theorem append_singleton {a : α} :
    Justified J (l ++ [a]) ↔ Justified J l ∧ J l a := by
  constructor
  · intro h
    refine ⟨fun pre b post hl => h pre b (post ++ [a]) (by simp [hl]), h l a [] rfl⟩
  · rintro ⟨hl, ha⟩ pre b post h
    rcases List.eq_nil_or_concat post with rfl | ⟨post', c, rfl⟩
    · obtain ⟨h1, h2⟩ := List.append_inj' h rfl
      obtain rfl := List.singleton_inj.1 h2
      exact h1 ▸ ha
    · have h' : l ++ [a] = (pre ++ b :: post') ++ [c] := by simpa using h
      exact hl pre b post' (List.append_inj' h' rfl).1

/-- A trace extended by the entries `o`, each justified by what stands before it. -/
theorem append {o : List α} (hl : Justified J l)
    (ho : Justified (fun pre a => J (l ++ pre) a) o) : Justified J (l ++ o) := by
  induction o using List.reverseRecOn with
  | nil => simpa using hl
  | append_singleton o a ih =>
    obtain ⟨ho, ha⟩ := append_singleton.1 ho
    rw [← List.append_assoc]
    exact append_singleton.2 ⟨ih ho, ha⟩

/-- An entry is justified by some part of the trace before it. -/
theorem of_mem (h : Justified J l) {a : α} (ha : a ∈ l) : ∃ pre post, l = pre ++ a :: post ∧ J pre a := by
  obtain ⟨pre, post, hl⟩ := List.append_of_mem ha
  exact ⟨pre, post, hl, h pre a post hl⟩

end Justified

/-- Of two different entries one stands before the other. -/
theorem mem_before_or_mem_before {l pre post pre' post' : List α} {a b : α}
    (hl : l = pre ++ a :: post) (hl' : l = pre' ++ b :: post') (hne : a ≠ b) :
    a ∈ pre' ∨ b ∈ pre := by
  rcases List.append_eq_append_iff.1 (hl.symm.trans hl') with ⟨mid, rfl, hmid⟩ | ⟨mid, rfl, hmid⟩
  · cases mid with
    | nil => exact absurd (List.cons.inj hmid).1 hne
    | cons c mid => exact Or.inl (by simp [(List.cons.inj hmid).1])
  · cases mid with
    | nil => exact absurd (List.cons.inj hmid).1.symm hne
    | cons c mid => exact Or.inr (by simp [(List.cons.inj hmid).1])

/-- An entry with `p` stands before any with `q`. -/
def Precedes (p q : α → Prop) (l : List α) : Prop :=
  ∃ pre a post, l = pre ++ a :: post ∧ p a ∧ ∀ b ∈ pre, ¬q b

namespace Precedes

variable {p q : α → Prop} {l : List α}

theorem append (h : Precedes p q l) (l' : List α) : Precedes p q (l ++ l') := by
  obtain ⟨pre, a, post, rfl, ha, hpre⟩ := h
  exact ⟨pre, a, post ++ l', by simp, ha, hpre⟩

theorem of_mem {a : α} (ha : a ∈ l) (hp : p a) (hq : ∀ b ∈ l, ¬q b) : Precedes p q l := by
  obtain ⟨pre, post, rfl⟩ := List.append_of_mem ha
  exact ⟨pre, a, post, rfl, hp, fun b hb => hq b (List.mem_append_left _ hb)⟩

theorem concat {a : α} (hp : p a) (hq : ∀ b ∈ l, ¬q b) : Precedes p q (l ++ [a]) :=
  ⟨l, a, [], rfl, hp, hq⟩

/-- An entry with `q` stands behind it. -/
theorem split (h : Precedes p q l) (hpq : ∀ a, p a → ¬q a) {b : α} (hb : b ∈ l) (hq : q b) :
    ∃ pre a mid post, l = pre ++ a :: (mid ++ b :: post) ∧ p a := by
  obtain ⟨pre, a, post, rfl, ha, hpre⟩ := h
  rcases List.mem_append.1 hb with hb | hb
  · exact absurd hq (hpre b hb)
  rcases List.mem_cons.1 hb with rfl | hb
  · exact absurd hq (hpq b ha)
  · obtain ⟨mid, post', rfl⟩ := List.append_of_mem hb
    exact ⟨pre, a, mid, post', rfl, ha⟩

end Precedes
