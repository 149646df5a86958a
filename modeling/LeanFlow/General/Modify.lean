import Mathlib.Algebra.Order.BigOperators.Group.List
import Mathlib.Algebra.Ring.Int.Defs
import Mathlib.Algebra.Ring.Nat
import Mathlib.Logic.Relation

/-! Lists whose entries are assigned in place. -/
namespace LeanFlow.General

variable {α : Type}

/-- An entry of a list with one entry assigned is an old one or the assigned one. -/
theorem mem_modify {l : List α} {i : Nat} {f : α → α} {x : α} (h : x ∈ l.modify i f) :
    x ∈ l ∨ ∃ a, l[i]? = some a ∧ x = f a := by
  obtain ⟨n, hn⟩ := List.mem_iff_getElem?.mp h
  rw [List.getElem?_modify] at hn
  cases hl : l[n]? with
  | none =>
    rw [hl] at hn
    cases hn
  | some a =>
    rw [hl] at hn
    obtain rfl : (if i = n then f a else a) = x := Option.some.inj hn
    split
    · rename_i hi
      exact Or.inr ⟨a, hi ▸ hl, rfl⟩
    · exact Or.inl (List.mem_of_getElem? hl)

/-- A sum changes by what the assigned entry changes. -/
theorem sum_modify {l : List α} {i : Nat} {a : α} (h : l[i]? = some a) (f : α → α) (g : α → Int) :
    ((l.modify i f).map g).sum = (l.map g).sum + (g (f a) - g a) := by
  induction l generalizing i with
  | nil => simp at h
  | cons b l ih =>
    cases i with
    | zero =>
      obtain rfl : b = a := by simpa using h
      simp only [List.modify_zero_cons, List.map_cons, List.sum_cons]
      omega
    | succ i =>
      have hl : l[i]? = some a := by simpa using h
      simp only [List.modify_succ_cons, List.map_cons, List.sum_cons, ih hl]
      omega

/-- Assigning what is there changes nothing. -/
theorem modify_eq_self {l : List α} {i : Nat} {f : α → α} (h : ∀ a, l[i]? = some a → f a = a) :
    l.modify i f = l := by
  refine List.ext_getElem? fun n => ?_
  rw [List.getElem?_modify]
  cases hl : l[n]? with
  | none => rfl
  | some a =>
    show some (if i = n then f a else a) = some a
    split
    · rename_i hi
      rw [h a (hi ▸ hl)]
    · rfl

/-- Every entry on the right comes from one on the left. -/
theorem mem_of_forall₂ {β : Type} {R : α → β → Prop} {l : List α} {l' : List β} (h : List.Forall₂ R l l') {b : β}
    (hb : b ∈ l') : ∃ a ∈ l, R a b := by
  induction h with
  | nil => cases hb
  | @cons a c l l' hR _ ih =>
    rcases List.mem_cons.mp hb with rfl | hb
    · exact ⟨a, List.mem_cons_self .., hR⟩
    · obtain ⟨a', ha', hR'⟩ := ih hb
      exact ⟨a', List.mem_cons_of_mem _ ha', hR'⟩

/-- A sum over the entries that pass a test. -/
theorem sum_filter (p : α → Bool) (g : α → Int) (l : List α) :
    ((l.filter p).map g).sum = (l.map fun a => if p a then g a else 0).sum := by
  have hite := List.sum_map_ite (fun a => p a = true) g (fun _ => 0) l
  simp only [Bool.decide_eq_true, List.map_const', List.sum_replicate, nsmul_zero, add_zero] at hite
  exact hite.symm

end LeanFlow.General
