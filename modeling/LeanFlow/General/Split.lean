import Mathlib.Data.List.Basic

/-! Cutting a list at a separator. -/
namespace LeanFlow.General
variable {α : Type} [BEq α] [LawfulBEq α] {a : α}

/-- There is no separator, or a first one. -/
theorem splitOn_cases (a : α) (xs : List α) :
    (a ∉ xs ∧ xs.splitOn a = [xs]) ∨
      ∃ part rest, a ∉ part ∧ xs = part ++ a :: rest ∧ xs.splitOn a = part :: rest.splitOn a := by
  by_cases h : a ∈ xs
  · obtain ⟨part, rest, rfl, hpart⟩ := List.eq_append_cons_of_mem h
    exact .inr ⟨part, rest, hpart, rfl, List.splitOn_append_cons_self_of_not_mem hpart rest⟩
  · exact .inl ⟨h, List.splitOn_eq_singleton h⟩

/-- No part has the separator. -/
theorem not_mem_of_mem_splitOn {xs part : List α} (h : part ∈ xs.splitOn a) : a ∉ part := by
  induction hn : xs.length using Nat.strongRecOn generalizing xs with
  | ind n ih =>
    rcases splitOn_cases a xs with ⟨hnot, hsplit⟩ | ⟨first, rest, hfirst, rfl, hsplit⟩
    · rw [hsplit, List.mem_singleton] at h
      exact h ▸ hnot
    · rw [hsplit] at h
      rcases List.mem_cons.mp h with rfl | hrest
      · exact hfirst
      · exact ih rest.length (by rw [← hn, List.length_append, List.length_cons]; omega) hrest rfl

end LeanFlow.General
