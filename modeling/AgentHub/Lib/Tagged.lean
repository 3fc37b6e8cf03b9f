import Mathlib.Data.List.Perm.Basic
import Mathlib.Data.List.Count

/-!
# Lists of tagged items

A list whose items carry a tag, such as a trace of many tasks, is known up to order by what it
holds under each tag. `f` reads something off some of the items.
-/

namespace Tagged

variable {α α' β κ : Type*} [DecidableEq κ] (tag : α → κ) (tag' : α' → κ) {f : α → Option β}
  {f' : α' → Option β} {l : List α} {l' : List α'}

/-- A list has no duplicates if it has none under each tag, and no value under two of them. -/
theorem nodup (h : ∀ k, ((l.filter fun a => tag a = k).filterMap f).Nodup)
    (hapart : ∀ a ∈ l, ∀ a' ∈ l, ∀ b, f a = some b → f a' = some b → tag a = tag a') :
    (l.filterMap f).Nodup := by
  induction l with
  | nil => exact List.nodup_nil
  | cons a l ih =>
    have hrest : (l.filterMap f).Nodup := by
      refine ih (fun k => (h k).sublist ?_) fun a₁ h₁ a₂ h₂ =>
        hapart a₁ (List.mem_cons_of_mem a h₁) a₂ (List.mem_cons_of_mem a h₂)
      exact ((List.sublist_cons_self a l).filter _).filterMap f
    cases hf : f a with
    | none => rwa [List.filterMap_cons_none hf]
    | some b =>
      rw [List.filterMap_cons_some hf, List.nodup_cons]
      refine ⟨fun hb => ?_, hrest⟩
      obtain ⟨a', ha', hfa'⟩ := List.mem_filterMap.1 hb
      have htag := hapart a List.mem_cons_self a' (List.mem_cons_of_mem a ha') b hf hfa'
      have hnodup := h (tag a)
      rw [List.filter_cons_of_pos (by simp), List.filterMap_cons_some hf, List.nodup_cons] at hnodup
      exact hnodup.1 (List.mem_filterMap.2 ⟨a', List.mem_filter.2 ⟨ha', by simpa using htag.symm⟩, hfa'⟩)

end Tagged
