import Mathlib.Data.List.Basic
import Mathlib.Order.Defs.Unbundled

/-!
# Renaming the keys of sorted lists

Two lists of one length, each sorted by a strict order, differ by a renaming of their
entries that keeps the order (`exists_renaming`). So keys that are drawn in increasing order
and compared only with each other can be forgotten : two lists of keyed entries that agree
but for their keys agree up to such a renaming (`exists_renaming_of_map_eq`).
-/

variable {κ κ' : Type*} {r : κ → κ → Prop} {r' : κ' → κ' → Prop}

/-- The renaming keeps the order of the keys `ks`. -/
def KeepsOrder (r : κ → κ → Prop) (r' : κ' → κ' → Prop) (ks : List κ) (ρ : κ → κ') : Prop :=
  ∀ i ∈ ks, ∀ j ∈ ks, r i j → r' (ρ i) (ρ j)

/-- The renaming sends the entry at a position to the entry at that position. -/
theorem exists_renaming [Std.Asymm r] [Inhabited κ'] : ∀ {l : List κ} {l' : List κ'}, l.Pairwise r →
    l'.Pairwise r' → l.length = l'.length → ∃ ρ : κ → κ', KeepsOrder r r' l ρ ∧ l' = l.map ρ
  | [], [], _, _, _ => ⟨fun _ => default, by simp [KeepsOrder], rfl⟩
  | [], _ :: _, _, _, hlen => by simp at hlen
  | _ :: _, [], _, _, hlen => by simp at hlen
  | k :: l, k' :: l', h, h', hlen => by
    classical
    rw [List.pairwise_cons] at h h'
    obtain ⟨ρ, hkeeps, rfl⟩ := exists_renaming h.2 h'.2 (by simpa using hlen)
    have hirrefl : ∀ i, ¬r i i := fun i hi => Std.Asymm.asymm i i hi hi
    have hold : ∀ j ∈ l, (if j = k then k' else ρ j) = ρ j := by
      intro j hj
      refine if_neg ?_
      rintro rfl
      exact hirrefl j (h.1 j hj)
    refine ⟨fun j => if j = k then k' else ρ j, ?_, ?_⟩
    · intro i hi j hj hij
      rcases List.mem_cons.1 hi with rfl | hil
      · rcases List.mem_cons.1 hj with rfl | hjl
        · exact absurd hij (hirrefl j)
        · simpa only [if_true, hold j hjl] using h'.1 _ (List.mem_map_of_mem hjl)
      · rcases List.mem_cons.1 hj with rfl | hjl
        · exact absurd hij (Std.Asymm.asymm _ _ (h.1 i hil))
        · simpa only [hold i hil, hold j hjl] using hkeeps i hil j hjl hij
    · rw [List.map_cons, if_pos rfl, List.map_congr_left hold]

/-- Entries with keys that increase, equal but for the keys. -/
theorem exists_renaming_of_map_eq [Std.Asymm r] [Inhabited κ'] {α α' β : Type*} {key : α → κ}
    {key' : α' → κ'} {value : α → β} {value' : α' → β} {l : List α} {l' : List α'}
    (h : l.Pairwise fun a b => r (key a) (key b)) (h' : l'.Pairwise fun a b => r' (key' a) (key' b))
    (hvalues : l.map value = l'.map value') :
    ∃ ρ : κ → κ', KeepsOrder r r' (l.map key) ρ ∧
      l'.map (fun a => (key' a, value' a)) = l.map fun a => (ρ (key a), value a) := by
  have hlen : l.length = l'.length := by simpa using congrArg List.length hvalues
  obtain ⟨ρ, hkeeps, hkeys⟩ := exists_renaming (List.pairwise_map.2 h) (List.pairwise_map.2 h')
    (by simpa using hlen)
  refine ⟨ρ, hkeeps, List.ext_getElem (by simp [hlen]) fun i hi hi' => ?_⟩
  have hkey := List.getElem_of_eq hkeys (i := i) (by simpa using hi)
  have hvalue := List.getElem_of_eq hvalues (i := i) (by simpa using hi')
  simp only [List.getElem_map] at hkey hvalue ⊢
  rw [hkey, hvalue]
