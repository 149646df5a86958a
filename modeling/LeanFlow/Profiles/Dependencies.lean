import LeanFlow.Profiles.Inspector

/-! What the rows of a type tell.

Two modules give a type the same rows just when they agree, in types and values that are looked
into, on every constant that is found from it (`localTypeDependencies_eq_iff`). -/
namespace LeanFlow.Profiles
open General

variable {Expr : Type} {getUsedConstants : Expr → List String} {repr : Expr → String}
variable {module module' : Module Expr} {mutableNames : List String} {type : Expr}

/-! ### The constants that are found -/

/-- A constant that is found from a type, of the module or not. -/
def Found (getUsedConstants : Expr → List String) (module : Module Expr) (mutableNames : List String) (type : Expr)
    (name : String) : Prop :=
  ∃ s ∈ getUsedConstants type, Relation.ReflTransGen (fun a b => b ∈ next getUsedConstants module mutableNames a) s name

theorem mem_next_iff (a b : String) :
    a ∈ module.keys ∧ b ∈ next getUsedConstants module mutableNames a ↔ b ∈ next getUsedConstants module mutableNames a := by
  refine and_iff_right_of_imp fun h => ?_
  by_contra hunknown
  rw [next, (module.get?_eq_none_iff a).mpr hunknown] at h
  cases h

theorem mem_sweep_iff_found (name : String) :
    name ∈ sweep (next getUsedConstants module mutableNames) module.keys (getUsedConstants type) [] ↔
      Found getUsedConstants module mutableNames type name := by
  rw [mem_sweep_iff]
  simp only [mem_next_iff]
  rfl

theorem Found.tail {a b : String} (h : Found getUsedConstants module mutableNames type a)
    (hnext : b ∈ next getUsedConstants module mutableNames a) : Found getUsedConstants module mutableNames type b := by
  obtain ⟨s, hs, hpath⟩ := h
  exact ⟨s, hs, hpath.tail hnext⟩

theorem name_of_row {name : String} {row : Row} (h : row_of repr module mutableNames name = some row) : row.name = name := by
  obtain ⟨info, -, rfl⟩ := Option.map_eq_some_iff.mp h
  rfl

theorem mem_localTypeDependencies (row : Row) :
    row ∈ localTypeDependencies getUsedConstants repr module mutableNames type ↔
      Found getUsedConstants module mutableNames type row.name ∧ row_of repr module mutableNames row.name = some row := by
  rw [localTypeDependencies, (List.mergeSort_perm ..).mem_iff, dependency_loop_eq, List.nil_append, List.mem_filterMap]
  constructor
  · rintro ⟨name, hname, hrow⟩
    obtain rfl := name_of_row hrow
    exact ⟨(mem_sweep_iff_found _).mp hname, hrow⟩
  · rintro ⟨hfound, hrow⟩
    exact ⟨row.name, (mem_sweep_iff_found _).mpr hfound, hrow⟩

/-! ### The order of the rows -/

theorem rows_pairwise :
    (localTypeDependencies getUsedConstants repr module mutableNames type).Pairwise fun a b => a.name ≤ b.name := by
  have hsorted := @List.pairwise_mergeSort Row (fun a b => decide (a.name ≤ b.name))
    (fun a b c hab hbc => decide_eq_true (String.le_trans (of_decide_eq_true hab) (of_decide_eq_true hbc)))
    (fun a b => by simpa using String.le_total a.name b.name)
    (dependency_loop getUsedConstants repr module mutableNames (getUsedConstants type) [] [])
  exact hsorted.imp of_decide_eq_true

theorem rows_nodup : (localTypeDependencies getUsedConstants repr module mutableNames type).Nodup := by
  rw [localTypeDependencies, (List.mergeSort_perm ..).nodup_iff, dependency_loop_eq, List.nil_append]
  refine List.Nodup.filterMap (fun a b row ha hb => ?_) (sweep_nodup _ _).1
  rw [← name_of_row (Option.mem_def.mp ha), ← name_of_row (Option.mem_def.mp hb)]

/-- Rows with one name are one row. -/
theorem row_eq_of_name {a b : Row} (ha : a ∈ localTypeDependencies getUsedConstants repr module mutableNames type)
    (hb : b ∈ localTypeDependencies getUsedConstants repr module mutableNames type) (h : a.name = b.name) : a = b := by
  have hrow := ((mem_localTypeDependencies a).mp ha).2
  rw [h, ((mem_localTypeDependencies b).mp hb).2] at hrow
  exact (Option.some.inj hrow).symm

theorem rows_eq_of_mem (h : ∀ row, row ∈ localTypeDependencies getUsedConstants repr module mutableNames type ↔
    row ∈ localTypeDependencies getUsedConstants repr module' mutableNames type) :
    localTypeDependencies getUsedConstants repr module mutableNames type =
      localTypeDependencies getUsedConstants repr module' mutableNames type := by
  have hperm : (localTypeDependencies getUsedConstants repr module mutableNames type).Perm
      (localTypeDependencies getUsedConstants repr module' mutableNames type) :=
    (List.perm_ext_iff_of_nodup rows_nodup rows_nodup).mpr h
  refine hperm.eq_of_pairwise (fun a b ha hb hab hba => ?_) rows_pairwise rows_pairwise
  exact row_eq_of_name ha ((h b).mpr hb) (String.le_antisymm hab hba)

/-! ### Two modules -/

/-- The modules agree in what is looked into of a constant, or both do not have it. -/
def Alike (module module' : Module Expr) (mutableNames : List String) (name : String) : Prop :=
  (module.get? name).map (fun info => (info.type, seen_value mutableNames name info)) =
    (module'.get? name).map fun info => (info.type, seen_value mutableNames name info)

theorem next_of_alike {name : String} (h : Alike module module' mutableNames name) :
    next getUsedConstants module mutableNames name = next getUsedConstants module' mutableNames name := by
  unfold Alike at h
  unfold next
  cases hinfo : module.get? name with
  | none =>
    rw [hinfo, Option.map_none] at h
    rw [Option.map_eq_none_iff.mp h.symm]
  | some info =>
    rw [hinfo, Option.map_some] at h
    obtain ⟨info', hinfo', hpair⟩ := Option.map_eq_some_iff.mp h.symm
    obtain ⟨htype, hvalue⟩ := Prod.mk.inj hpair
    rw [hinfo']
    show used getUsedConstants mutableNames name info = used getUsedConstants mutableNames name info'
    rw [used, used, htype, hvalue]

theorem found_of_alike (h : ∀ name, Found getUsedConstants module mutableNames type name → Alike module module' mutableNames name)
    (name : String) :
    Found getUsedConstants module mutableNames type name ↔ Found getUsedConstants module' mutableNames type name := by
  constructor
  · rintro ⟨s, hs, hpath⟩
    induction hpath with
    | refl => exact ⟨s, hs, .refl⟩
    | tail hpath hstep ih => exact ih.tail (next_of_alike (h _ ⟨s, hs, hpath⟩) ▸ hstep)
  · rintro ⟨s, hs, hpath⟩
    induction hpath with
    | refl => exact ⟨s, hs, .refl⟩
    | tail hpath hstep ih => exact ih.tail (next_of_alike (h _ ih) ▸ hstep)

theorem row_of_eq_iff (hrepr : Function.Injective repr) (name : String) :
    row_of repr module mutableNames name = row_of repr module' mutableNames name ↔ Alike module module' mutableNames name := by
  have hrow (m : Module Expr) : row_of repr m mutableNames name =
      ((m.get? name).map fun info => (info.type, seen_value mutableNames name info)).map
        fun pair => ⟨name, repr pair.1, pair.2.map repr⟩ := by
    rw [row_of, Option.map_map]
    rfl
  rw [hrow, hrow, Alike]
  refine (Option.map_injective fun a b h => ?_).eq_iff
  obtain ⟨-, htype, hvalue⟩ := Row.mk.inj h
  exact Prod.ext (hrepr htype) (Option.map_injective hrepr hvalue)

/-- **The rows are the same just when the modules agree on every constant that is found.** -/
theorem localTypeDependencies_eq_iff (hrepr : Function.Injective repr) :
    localTypeDependencies getUsedConstants repr module mutableNames type =
        localTypeDependencies getUsedConstants repr module' mutableNames type ↔
      ∀ name, Found getUsedConstants module mutableNames type name → Alike module module' mutableNames name := by
  constructor
  · intro h
    -- a constant that is found in both has the same row in both, or none
    have hboth (name : String) (hfound : Found getUsedConstants module mutableNames type name)
        (hfound' : Found getUsedConstants module' mutableNames type name) : Alike module module' mutableNames name := by
      refine (row_of_eq_iff hrepr name).mp (Option.ext fun row => ?_)
      constructor
      · intro hrow
        obtain rfl := name_of_row hrow
        exact ((mem_localTypeDependencies row).mp (h ▸ (mem_localTypeDependencies row).mpr ⟨hfound, hrow⟩)).2
      · intro hrow
        obtain rfl := name_of_row hrow
        exact ((mem_localTypeDependencies row).mp (h ▸ (mem_localTypeDependencies row).mpr ⟨hfound', hrow⟩)).2
    rintro name ⟨s, hs, hpath⟩
    refine hboth name ⟨s, hs, hpath⟩ ?_
    induction hpath with
    | refl => exact ⟨s, hs, .refl⟩
    | tail hpath hstep ih => exact ih.tail (next_of_alike (hboth _ ⟨s, hs, hpath⟩ ih) ▸ hstep)
  · intro h
    refine rows_eq_of_mem fun row => ?_
    rw [mem_localTypeDependencies, mem_localTypeDependencies, ← found_of_alike h]
    refine and_congr_right fun hfound => ?_
    rw [(row_of_eq_iff hrepr row.name).mpr (h row.name hfound)]

end LeanFlow.Profiles
