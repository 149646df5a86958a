import LeanFlow.General.Dict
import Mathlib.Data.Bool.Basic
import Mathlib.Data.List.Perm.Subperm

/-! Counting: how a count changes when one value does. -/
namespace LeanFlow.General

variable {κ α β : Type}

/-! ### Lists -/

/-- One member is changed. -/
theorem countP_modify (p : α → Bool) (f : α → α) {l : List α} {i : Nat} {x : α} (h : l[i]? = some x) :
    (l.modify i f).countP p + (p x).toNat = l.countP p + (p (f x)).toNat := by
  induction l generalizing i with
  | nil => cases h
  | cons y l ih =>
    cases i with
    | zero =>
      obtain rfl : y = x := Option.some.inj h
      rw [List.modify_zero_cons, List.countP_cons, List.countP_cons]
      cases p y <;> cases p (f y) <;> simp
    | succ i =>
      rw [List.modify_succ_cons, List.countP_cons, List.countP_cons]
      have := ih (i := i) h
      omega

/-- A change that `p` does not see. -/
theorem countP_modify_same (p : α → Bool) {f : α → α} (l : List α) {i : Nat} (hf : ∀ x, l[i]? = some x → p (f x) = p x) :
    (l.modify i f).countP p = l.countP p := by
  cases h : l[i]? with
  | none => rw [List.modify_eq_self (List.getElem?_eq_none_iff.mp h)]
  | some x =>
    have := countP_modify p f h
    rw [hf x h] at this
    omega

theorem countP_or_le (p q : α → Bool) (l : List α) : l.countP (fun x => p x || q x) ≤ l.countP p + l.countP q := by
  induction l with
  | nil => exact Nat.zero_le _
  | cons x l ih =>
    rw [List.countP_cons, List.countP_cons, List.countP_cons]
    cases p x <;> cases q x <;> simp <;> omega

/-- Counts that are below each other for every key are below each other. -/
theorem countP_le_of_keys [DecidableEq κ] (f : α → κ) (g : β → κ) {p : α → Bool} {q : β → Bool} {l : List α} {m : List β}
    (h : ∀ k, l.countP (fun x => f x = k && p x) ≤ m.countP fun y => g y = k && q y) : l.countP p ≤ m.countP q := by
  have hcount {γ : Type} (f : γ → κ) (p : γ → Bool) (l : List γ) (k : κ) :
      ((l.filter p).map f).count k = l.countP fun x => f x = k && p x := by
    rw [List.count, List.countP_map, List.countP_filter]
    exact List.countP_congr fun x _ => by simp
  have hsub : ((l.filter p).map f).Subperm ((m.filter q).map g) := List.subperm_ext_iff.mpr fun k _ => by
    rw [hcount, hcount]
    exact h k
  have hlength := hsub.length_le
  rwa [List.length_map, List.length_map, ← List.countP_eq_length_filter, ← List.countP_eq_length_filter] at hlength

/-! ### Dictionaries -/

namespace Dict

/-- How many values satisfy `p`. -/
def count (p : α → Bool) (d : Dict κ α) : Nat := d.items.countP fun item => p item.2

@[simp] theorem count_empty (p : α → Bool) : (empty : Dict κ α).count p = 0 := rfl

/-- A change that `p` does not see. -/
theorem count_mapValues (p : α → Bool) (d : Dict κ α) {f : κ → α → α} (hf : ∀ k a, p (f k a) = p a) :
    (d.mapValues f).count p = d.count p := by
  show (d.items.map fun item => (item.1, f item.1 item.2)).countP _ = d.items.countP _
  rw [List.countP_map]
  exact List.countP_congr fun item _ => by simp only [Function.comp, hf]

variable [DecidableEq κ]

/-- The value of one key, and the others. -/
theorem count_eq_erase (p : α → Bool) (d : Dict κ α) (k : κ) :
    d.count p = (d.erase k).count p + ((d.get? k).any p).toNat := by
  obtain ⟨items, hnodup⟩ := d
  show items.countP (fun item => p item.2) =
    (items.filter fun item => item.1 ≠ k).countP (fun item => p item.2) + ((find k items).any p).toNat
  induction items with
  | nil => rfl
  | cons item rest ih =>
    obtain ⟨hnot, hrest⟩ := List.nodup_cons.mp hnodup
    rw [List.countP_cons]
    by_cases hk : item.1 = k
    · have hsame : (rest.filter fun item => item.1 ≠ k) = rest := by
        refine List.filter_eq_self.mpr fun other hother => ?_
        have hne : other.1 ≠ k := fun he => hnot (List.mem_map.mpr ⟨other, hother, he.trans hk.symm⟩)
        simpa using hne
      rw [List.filter_cons_of_neg (by simpa using hk), hsame, find, if_pos hk, Option.any_some]
      cases p item.2 <;> rfl
    · rw [List.filter_cons_of_pos (by simpa using hk), List.countP_cons, find, if_neg hk, ih hrest]
      omega

@[simp] theorem erase_set (d : Dict κ α) (k : κ) (v : α) : (d.set k v).erase k = d.erase k := by
  refine ext_items ?_
  show (assign k v d.items).filter _ = d.items.filter _
  induction d.items with
  | nil => simp [assign]
  | cons item rest ih =>
    by_cases hk : item.1 = k
    · simp [assign, hk]
    · simp only [assign, if_neg hk, List.filter_cons, ih]

/-- Changing the value of one key leaves the others. -/
@[simp] theorem erase_mapValues (d : Dict κ α) (k : κ) (f : α → α) :
    (d.mapValues fun x a => if x = k then f a else a).erase k = d.erase k := by
  refine ext_items ?_
  show (d.items.map fun item => (item.1, if item.1 = k then f item.2 else item.2)).filter _ = d.items.filter _
  induction d.items with
  | nil => rfl
  | cons item rest ih =>
    by_cases hk : item.1 = k
    · simp only [List.map_cons, List.filter_cons, hk, ih]
      simp
    · simp only [List.map_cons, List.filter_cons, if_neg hk, ih]

end Dict

end LeanFlow.General
