import LeanFlow.General.Except
import LeanFlow.Profiles.Dependencies

/-! The fingerprint of a protected declaration.

`compiled_type_profiles` finds the declaration that a name means among the inspector's lines and
hashes its level parameters, its type and its rows. Equal hashes are equal lines
(`sha256_eq_iff`), and a name has one line at most (`mem_profiles_iff`). -/
namespace LeanFlow.Profiles
open General

/-- A line of the inspector's report. -/
structure Line where
  name : String
  type : String
  levels : List String
  dependencies : List Row

structure Profile where
  line : Line
  sha256 : String

section
variable {Expr : Type} (getUsedConstants : Expr → List String) (repr : Expr → String)
variable (float_repr : Rat → List Char) (digest : List Char → String)
variable (module : Module Expr) (names mutableNames : List String)

def line (name : String) (info : ConstantInfo Expr) : Line :=
  ⟨name, repr info.type, info.levelParams, localTypeDependencies getUsedConstants repr module mutableNames info.type⟩

/-- The inspector's `main`. -/
def inspect : List Line :=
  (module.items.filter fun constant => selectedName names constant.1).map fun constant =>
    line getUsedConstants repr module mutableNames constant.1 constant.2

/-- What is hashed of a line. -/
def Line.json (line : Line) : Json :=
  .arr [.arr (line.levels.map .str), .str line.type, .arr (line.dependencies.map Row.json)]

def sha256 (line : Line) : String := digest (line.json.dumps_wide float_repr)

/-- The profile of the one declaration that a name means. -/
def profile (rows : List Line) (name : String) : Except String Profile :=
  match rows.filter fun row => is_named row.name name with
  | [row] =>
    if row.type = "" then .error "invalid kernel type profile: missing raw kernel type"
    else .ok ⟨row, sha256 float_repr digest row⟩
  | _ => .error ("invalid kernel type profile: expected one exact compiled declaration for " ++ name)

def compiled_type_profiles : Except String (List (String × Profile)) :=
  names.mapM fun name => do
    let found ← profile float_repr digest (inspect getUsedConstants repr module names mutableNames) name
    return (name, found)

end

/-! ### What is hashed -/

section
variable {float_repr : Rat → List Char} {digest : List Char → String}

theorem Row.json_injective : Function.Injective Row.json := by
  rintro ⟨name, type, value⟩ ⟨name', type', value'⟩ h
  simp only [Row.json, Json.obj.injEq, List.cons.injEq, Prod.mk.injEq, Json.str.injEq, true_and, and_true] at h
  obtain ⟨rfl, rfl, hvalue⟩ := h
  congr
  cases value with
  | none => cases value' with
    | none => rfl
    | some _ => cases hvalue
  | some _ => cases value' with
    | none => cases hvalue
    | some _ => exact congrArg some (Json.str.inj hvalue)

theorem Line.integral (line : Line) : line.json.Integral := by
  have hlevels : Json.IntegralItems (line.levels.map .str) := by
    refine (Json.integralItems_iff _).mpr fun item hitem => ?_
    obtain ⟨level, -, rfl⟩ := List.mem_map.mp hitem
    trivial
  have hrows : Json.IntegralItems (line.dependencies.map Row.json) := by
    refine (Json.integralItems_iff _).mpr fun item hitem => ?_
    obtain ⟨row, -, rfl⟩ := List.mem_map.mp hitem
    refine ⟨trivial, trivial, ?_, trivial⟩
    cases row.value <;> trivial
  exact ⟨hlevels, trivial, hrows, trivial⟩

theorem sha256_eq_iff (hdigest : Function.Injective digest) (a b : Line) :
    sha256 float_repr digest a = sha256 float_repr digest b ↔
      a.levels = b.levels ∧ a.type = b.type ∧ a.dependencies = b.dependencies := by
  constructor
  · intro h
    have hjson := Json.dumps_wide_injective a.integral b.integral (hdigest h)
    simp only [Line.json, Json.arr.injEq, List.cons.injEq, Json.str.injEq, and_true] at hjson
    obtain ⟨hlevels, htype, hrows⟩ := hjson
    exact ⟨List.map_injective_iff.mpr (fun _ _ => Json.str.inj) hlevels, htype,
      List.map_injective_iff.mpr Row.json_injective hrows⟩
  · rintro ⟨hlevels, htype, hrows⟩
    rw [sha256, sha256, Line.json, Line.json, hlevels, htype, hrows]

end

/-! ### The declaration that a name means -/

section
variable {Expr : Type} {getUsedConstants : Expr → List String} {repr : Expr → String}
variable {float_repr : Rat → List Char} {digest : List Char → String}
variable {module module' : Module Expr} {names mutableNames : List String}

/-- One declaration of the module is meant by the name. -/
def Means (module : Module Expr) (name d : String) (info : ConstantInfo Expr) : Prop :=
  (module.items.filter fun constant => is_named constant.1 name) = [(d, info)]

/-- Every name means a declaration, and its type is printed. -/
def Profiled (repr : Expr → String) (module : Module Expr) (names : List String) : Prop :=
  ∀ name ∈ names, ∃ d info, Means module name d info ∧ repr info.type ≠ ""

theorem Means.get? {name d : String} {info : ConstantInfo Expr} (h : Means module name d info) : module.get? d = some info := by
  refine (module.get?_eq_some_iff d info).mpr ?_
  have hmem : (d, info) ∈ module.items.filter fun constant => is_named constant.1 name := by
    rw [h]
    exact List.mem_singleton_self _
  exact (List.mem_filter.mp hmem).1

/-- The inspector reports every declaration that a requested name means. -/
theorem filter_inspect {name : String} (hname : name ∈ names) :
    ((inspect getUsedConstants repr module names mutableNames).filter fun row => is_named row.name name) =
      (module.items.filter fun constant => is_named constant.1 name).map fun constant =>
        line getUsedConstants repr module mutableNames constant.1 constant.2 := by
  rw [inspect, List.filter_map, List.filter_filter]
  congr 1
  refine List.filter_congr fun constant _ => ?_
  show (is_named constant.1 name && selectedName names constant.1) = is_named constant.1 name
  refine Bool.and_eq_left_iff_imp.mpr fun h => ?_
  exact List.any_eq_true.mpr ⟨name, hname, h⟩

theorem profile_ok_iff {name : String} (hname : name ∈ names) (found : Profile) :
    profile float_repr digest (inspect getUsedConstants repr module names mutableNames) name = .ok found ↔
      ∃ d info, Means module name d info ∧ repr info.type ≠ "" ∧
        found = ⟨line getUsedConstants repr module mutableNames d info,
          sha256 float_repr digest (line getUsedConstants repr module mutableNames d info)⟩ := by
  unfold profile Means
  rw [filter_inspect hname]
  generalize (module.items.filter fun constant => is_named constant.1 name) = meant
  rcases meant with _ | ⟨⟨d, info⟩, _ | ⟨other, rest⟩⟩
  · simp
  · simp only [List.map_cons, List.map_nil]
    by_cases htype : (line getUsedConstants repr module mutableNames d info).type = ""
    · rw [if_pos htype]
      simp only [reduceCtorEq, List.cons.injEq, Prod.mk.injEq, and_true, false_iff]
      rintro ⟨d', info', ⟨rfl, rfl⟩, hne, -⟩
      exact hne htype
    · rw [if_neg htype]
      simp only [Except.ok.injEq, List.cons.injEq, Prod.mk.injEq, and_true]
      constructor
      · rintro rfl
        exact ⟨d, info, ⟨rfl, rfl⟩, htype, rfl⟩
      · rintro ⟨d', info', ⟨rfl, rfl⟩, -, rfl⟩
        rfl
  · simp

/-- All profiles are given just when every name means a declaration. -/
theorem exists_profiles_iff :
    (∃ profiles, compiled_type_profiles getUsedConstants repr float_repr digest module names mutableNames = .ok profiles) ↔
      Profiled repr module names := by
  constructor
  · rintro ⟨profiles, h⟩ name hname
    obtain ⟨pair, -, hpair⟩ := mapM_eq_ok h hname
    obtain ⟨found, hfound, -⟩ := bind_eq_ok.mp hpair
    obtain ⟨d, info, hmeans, htype, -⟩ := (profile_ok_iff hname found).mp hfound
    exact ⟨d, info, hmeans, htype⟩
  · intro h
    refine mapM_ok fun name hname => ?_
    obtain ⟨d, info, hmeans, htype⟩ := h name hname
    obtain ⟨found, hfound⟩ : ∃ found, profile float_repr digest (inspect getUsedConstants repr module names mutableNames) name =
        .ok found := ⟨_, (profile_ok_iff hname _).mpr ⟨d, info, hmeans, htype, rfl⟩⟩
    exact ⟨_, bind_eq_ok.mpr ⟨found, hfound, rfl⟩⟩

/-- The fingerprint of a name. -/
theorem mem_profiles_iff {profiles : List (String × Profile)}
    (h : compiled_type_profiles getUsedConstants repr float_repr digest module names mutableNames = .ok profiles)
    {name : String} (found : Profile) :
    (name, found) ∈ profiles ↔ name ∈ names ∧ ∃ d info, Means module name d info ∧
      found = ⟨line getUsedConstants repr module mutableNames d info,
        sha256 float_repr digest (line getUsedConstants repr module mutableNames d info)⟩ := by
  constructor
  · intro hmem
    obtain ⟨name', hname, hpair⟩ := mapM_mem h hmem
    obtain ⟨found', hfound, hpair⟩ := bind_eq_ok.mp hpair
    obtain ⟨rfl, rfl⟩ := Prod.mk.inj (Except.ok.inj hpair)
    obtain ⟨d, info, hmeans, -, rfl⟩ := (profile_ok_iff hname _).mp hfound
    exact ⟨hname, d, info, hmeans, rfl⟩
  · rintro ⟨hname, d, info, hmeans, rfl⟩
    obtain ⟨pair, hmem, hpair⟩ := mapM_eq_ok h hname
    obtain ⟨found, hfound, hpair⟩ := bind_eq_ok.mp hpair
    obtain ⟨d', info', hmeans', -, rfl⟩ := (profile_ok_iff hname _).mp hfound
    obtain ⟨rfl, rfl⟩ : d = d' ∧ info = info' := by
      have hsame := hmeans.symm.trans hmeans'
      simpa using hsame
    obtain rfl := Except.ok.inj hpair
    exact hmem

end

end LeanFlow.Profiles
