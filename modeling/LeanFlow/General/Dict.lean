import Mathlib.Data.List.Nodup
import Mathlib.Data.List.Basic

/-! Insertion-ordered dictionaries.

A dictionary is a list of items with distinct keys. Assigning a key that is
present keeps its place and replaces its value; assigning a new key appends it.
The order is observable: a consumer may walk the items in order or in reverse. -/
namespace LeanFlow.General

structure Dict (κ α : Type) where
  items : List (κ × α)
  distinct : (items.map Prod.fst).Nodup

namespace Dict
variable {κ α : Type}

theorem ext_items {a b : Dict κ α} (h : a.items = b.items) : a = b := by
  cases a
  cases b
  cases h
  rfl

instance [DecidableEq κ] [DecidableEq α] : DecidableEq (Dict κ α) := fun _ _ =>
  decidable_of_iff _ ⟨ext_items, fun h => congrArg Dict.items h⟩

def empty : Dict κ α := ⟨[], List.nodup_nil⟩

instance : Inhabited (Dict κ α) := ⟨empty⟩

def keys (d : Dict κ α) : List κ := d.items.map Prod.fst

variable [DecidableEq κ]

/-- The value of the first item with the key `k`. -/
def find (k : κ) : List (κ × α) → Option α
  | [] => none
  | p :: rest => if p.1 = k then some p.2 else find k rest

def get? (d : Dict κ α) (k : κ) : Option α := find k d.items

/-- The items after `d[k] = v`. -/
def assign (k : κ) (v : α) : List (κ × α) → List (κ × α)
  | [] => [(k, v)]
  | p :: rest => if p.1 = k then (p.1, v) :: rest else p :: assign k v rest

theorem mem_keys_assign (k : κ) (v : α) (l : List (κ × α)) (x : κ) :
    x ∈ (assign k v l).map Prod.fst ↔ x = k ∨ x ∈ l.map Prod.fst := by
  induction l with
  | nil => simp [assign]
  | cons p rest ih =>
    by_cases h : p.1 = k
    · subst h
      simp [assign]
    · simp only [assign, if_neg h, List.map_cons, List.mem_cons, ih]
      tauto

theorem nodup_assign (k : κ) (v : α) (l : List (κ × α)) (h : (l.map Prod.fst).Nodup) :
    ((assign k v l).map Prod.fst).Nodup := by
  induction l with
  | nil => simp [assign]
  | cons p rest ih =>
    obtain ⟨hnot, hrest⟩ := List.nodup_cons.mp h
    by_cases hk : p.1 = k
    · simp only [assign, if_pos hk]
      exact h
    · simp only [assign, if_neg hk, List.map_cons]
      refine List.nodup_cons.mpr ⟨?_, ih hrest⟩
      rw [mem_keys_assign]
      rintro (he | hm)
      · exact hk he
      · exact hnot hm

def set (d : Dict κ α) (k : κ) (v : α) : Dict κ α :=
  ⟨assign k v d.items, nodup_assign k v d.items d.distinct⟩

def erase (d : Dict κ α) (k : κ) : Dict κ α :=
  ⟨d.items.filter (fun p => p.1 ≠ k), d.distinct.sublist (List.filter_sublist.map Prod.fst)⟩

/-- A dictionary from a list of items, a later item replacing an earlier one. -/
def ofList (l : List (κ × α)) : Dict κ α := l.foldl (fun d p => d.set p.1 p.2) empty

/-! ### Reading back -/

theorem find_assign (k : κ) (v : α) (l : List (κ × α)) (x : κ) :
    find x (assign k v l) = if x = k then some v else find x l := by
  induction l with
  | nil => simp [assign, find, eq_comm]
  | cons p rest ih =>
    by_cases hp : p.1 = k
    · simp only [assign, if_pos hp, find]
      by_cases h : x = k
      · rw [if_pos h, if_pos (hp.trans h.symm)]
      · rw [if_neg h, if_neg (fun he => h (he.symm.trans hp)), if_neg (fun he => h (he.symm.trans hp))]
    · simp only [assign, if_neg hp, find, ih]
      by_cases h : x = k
      · rw [if_neg (fun he => hp (he.trans h)), if_pos h, if_pos h]
      · rw [if_neg h, if_neg h]

/-- The last assignment of a key counts. -/
theorem assign_assign (k : κ) (v v' : α) (l : List (κ × α)) : assign k v' (assign k v l) = assign k v' l := by
  induction l with
  | nil => simp [assign]
  | cons p rest ih =>
    by_cases h : p.1 = k
    · simp only [assign, if_pos h]
    · simp only [assign, if_neg h, ih]

theorem set_set (d : Dict κ α) (k : κ) (v v' : α) : (d.set k v).set k v' = d.set k v' :=
  ext_items (assign_assign k v v' d.items)

@[simp] theorem get?_empty (k : κ) : (empty : Dict κ α).get? k = none := rfl

theorem get?_set (d : Dict κ α) (k : κ) (v : α) (x : κ) :
    (d.set k v).get? x = if x = k then some v else d.get? x :=
  find_assign k v d.items x

@[simp] theorem get?_set_self (d : Dict κ α) (k : κ) (v : α) : (d.set k v).get? k = some v := by
  rw [get?_set, if_pos rfl]

theorem get?_set_ne (d : Dict κ α) {k x : κ} (v : α) (h : x ≠ k) :
    (d.set k v).get? x = d.get? x := by
  rw [get?_set, if_neg h]

theorem find_filter_ne (k : κ) (l : List (κ × α)) (x : κ) :
    find x (l.filter (fun p => p.1 ≠ k)) = if x = k then none else find x l := by
  induction l with
  | nil => simp [find]
  | cons p rest ih =>
    by_cases hp : p.1 = k
    · rw [List.filter_cons_of_neg (by simpa using hp), ih, find]
      by_cases h : x = k
      · rw [if_pos h, if_pos h]
      · rw [if_neg h, if_neg h, if_neg (fun he => h (he.symm.trans hp))]
    · rw [List.filter_cons_of_pos (by simpa using hp), find, ih, find]
      by_cases h : x = k
      · rw [if_neg (fun he => hp (he.trans h)), if_pos h, if_pos h]
      · simp only [if_neg h]

theorem get?_erase (d : Dict κ α) (k x : κ) :
    (d.erase k).get? x = if x = k then none else d.get? x :=
  find_filter_ne k d.items x

theorem find_eq_some_iff {l : List (κ × α)} (h : (l.map Prod.fst).Nodup) (k : κ) (v : α) :
    find k l = some v ↔ (k, v) ∈ l := by
  induction l with
  | nil => simp [find]
  | cons p rest ih =>
    obtain ⟨hnot, hrest⟩ := List.nodup_cons.mp h
    rw [find, List.mem_cons]
    by_cases hp : p.1 = k
    · subst hp
      have hmem : (p.1, v) ∉ rest := fun hw => hnot (List.mem_map.mpr ⟨_, hw, rfl⟩)
      simp only [if_pos, hmem, or_false, Option.some.injEq]
      exact ⟨fun hv => by rw [← hv], fun he => (congrArg Prod.snd he).symm⟩
    · rw [if_neg hp, ih hrest]
      refine ⟨Or.inr, ?_⟩
      rintro (he | hm)
      · exact absurd (congrArg Prod.fst he).symm hp
      · exact hm

theorem get?_eq_some_iff (d : Dict κ α) (k : κ) (v : α) : d.get? k = some v ↔ (k, v) ∈ d.items :=
  find_eq_some_iff d.distinct k v

theorem mem_keys_iff (d : Dict κ α) (k : κ) : k ∈ d.keys ↔ ∃ v, d.get? k = some v := by
  simp only [keys, List.mem_map, get?_eq_some_iff]
  constructor
  · rintro ⟨⟨k', v⟩, hp, rfl⟩
    exact ⟨v, hp⟩
  · rintro ⟨v, hv⟩
    exact ⟨(k, v), hv, rfl⟩

theorem get?_eq_none_iff (d : Dict κ α) (k : κ) : d.get? k = none ↔ k ∉ d.keys := by
  rw [mem_keys_iff, Option.eq_none_iff_forall_ne_some]
  simp

/-- What a dictionary finds after some assignments is one of them, or was there. -/
theorem mem_of_get?_foldl {items : List (κ × α)} {x : κ} {y : α} {d : Dict κ α}
    (h : (items.foldl (fun d p => d.set p.1 p.2) d).get? x = some y) : (x, y) ∈ items ∨ d.get? x = some y := by
  induction items generalizing d with
  | nil => exact Or.inr h
  | cons p items ih =>
    rcases ih (List.foldl_cons .. ▸ h) with hmem | hset
    · exact Or.inl (List.mem_cons_of_mem _ hmem)
    · rw [get?_set] at hset
      split at hset
      · rename_i hkey
        obtain rfl := Option.some.inj hset
        subst hkey
        exact Or.inl (List.mem_cons_self ..)
      · exact Or.inr hset

theorem mem_of_get?_ofList {items : List (κ × α)} {x : κ} {y : α} (h : (ofList items).get? x = some y) : (x, y) ∈ items := by
  rcases mem_of_get?_foldl h with hmem | hempty
  · exact hmem
  · cases hempty

/-- An assigned key is found. -/
theorem exists_get?_foldl {items : List (κ × α)} {x : κ} {d : Dict κ α}
    (h : x ∈ items.map Prod.fst ∨ ∃ y, d.get? x = some y) :
    ∃ y, (items.foldl (fun d p => d.set p.1 p.2) d).get? x = some y := by
  induction items generalizing d with
  | nil =>
    rcases h with hmem | hsome
    · cases hmem
    · exact hsome
  | cons p items ih =>
    refine ih ?_
    rw [List.map_cons, List.mem_cons] at h
    by_cases hx : x = p.1
    · exact Or.inr ⟨p.2, by rw [get?_set, if_pos hx]⟩
    · rcases h with (heq | hmem) | ⟨y, hy⟩
      · exact absurd heq hx
      · exact Or.inl hmem
      · exact Or.inr ⟨y, by rw [get?_set, if_neg hx]; exact hy⟩

theorem exists_get?_ofList {items : List (κ × α)} {x : κ} (h : x ∈ items.map Prod.fst) : ∃ y, (ofList items).get? x = some y :=
  exists_get?_foldl (Or.inl h)

/-! ### Comparing and filtering -/

/-- The same values under the same keys, in any order. -/
def equals [DecidableEq α] (d e : Dict κ α) : Bool :=
  d.items.all (fun p => e.get? p.1 = some p.2) && e.items.all fun p => d.get? p.1 = some p.2

theorem equals_iff [DecidableEq α] {d e : Dict κ α} : d.equals e = true ↔ ∀ k, d.get? k = e.get? k := by
  simp only [equals, Bool.and_eq_true, List.all_eq_true, decide_eq_true_eq]
  constructor
  · rintro ⟨hd, he⟩ k
    cases hk : d.get? k with
    | some v => exact (hd (k, v) ((get?_eq_some_iff ..).mp hk)).symm
    | none =>
      cases hk' : e.get? k with
      | none => rfl
      | some v => exact absurd (hk.symm.trans (he (k, v) ((get?_eq_some_iff ..).mp hk'))) (by simp)
  · intro h
    refine ⟨fun p hp => ?_, fun p hp => ?_⟩
    · rw [← h]
      exact (get?_eq_some_iff ..).mpr hp
    · rw [h]
      exact (get?_eq_some_iff ..).mpr hp

/-- The items whose keys satisfy `p`. -/
def restrict (p : κ → Bool) (d : Dict κ α) : Dict κ α :=
  ⟨d.items.filter fun item => p item.1, d.distinct.sublist (List.filter_sublist.map Prod.fst)⟩

theorem get?_restrict (p : κ → Bool) (d : Dict κ α) (k : κ) :
    (d.restrict p).get? k = if p k = true then d.get? k else none := by
  ext v
  rw [get?_eq_some_iff]
  show (k, v) ∈ d.items.filter (fun item => p item.1) ↔ _
  rw [List.mem_filter]
  by_cases hk : p k = true
  · rw [if_pos hk, get?_eq_some_iff]
    exact and_iff_left hk
  · rw [if_neg hk]
    exact iff_of_false (fun h => hk h.2) (fun h => by cases h)

/-- The items that satisfy `p`. -/
def keep (p : κ × α → Bool) (d : Dict κ α) : Dict κ α :=
  ⟨d.items.filter p, d.distinct.sublist (List.filter_sublist.map Prod.fst)⟩

/-- Every value replaced by what `f` makes of it and its key. -/
def mapValues {β : Type} (f : κ → α → β) (d : Dict κ α) : Dict κ β where
  items := d.items.map fun item => (item.1, f item.1 item.2)
  distinct := by
    rw [List.map_map]
    exact d.distinct

theorem get?_mapValues {β : Type} (f : κ → α → β) (d : Dict κ α) (k : κ) : (d.mapValues f).get? k = (d.get? k).map (f k) := by
  have hfind (l : List (κ × α)) : find k (l.map fun item => (item.1, f item.1 item.2)) = (find k l).map (f k) := by
    induction l with
    | nil => rfl
    | cons item l ih =>
      simp only [List.map_cons, find]
      split
      · rename_i heq
        rw [heq]
        rfl
      · exact ih
  exact hfind d.items

/-- The same items in another order. -/
def reorder (d : Dict κ α) (items : List (κ × α)) (h : items.Perm d.items) : Dict κ α :=
  ⟨items, (h.map Prod.fst).nodup_iff.mpr d.distinct⟩

end Dict
end LeanFlow.General
