import LeanFlow.General.Explore
import LeanFlow.General.JsonLayout

/-! The kernel inspector: what is reported of a declaration of a freshly compiled module.

A declaration's type is reported with a row for each constant of the module that is found
by following types and values. Values of theorems, and of the declarations whose proofs are
still to be written, are left out. -/
namespace LeanFlow.Profiles
open General

/-- What every constant has. -/
structure ConstantVal (Expr : Type) where
  levelParams : List String
  type : Expr

inductive ConstantInfo (Expr : Type) where
  | axiomInfo (val : ConstantVal Expr)
  | defnInfo (val : ConstantVal Expr) (value : Expr)
  | thmInfo (val : ConstantVal Expr) (value : Expr)
  | opaqueInfo (val : ConstantVal Expr) (value : Expr)
  | inductInfo (val : ConstantVal Expr) (ctors : List String)
  | ctorInfo (val : ConstantVal Expr)
  | recInfo (val : ConstantVal Expr)

namespace ConstantInfo
variable {Expr : Type}

def toConstantVal : ConstantInfo Expr → ConstantVal Expr
  | axiomInfo val | defnInfo val _ | thmInfo val _ | opaqueInfo val _ | inductInfo val _ | ctorInfo val | recInfo val => val

def levelParams (info : ConstantInfo Expr) : List String := info.toConstantVal.levelParams

def type (info : ConstantInfo Expr) : Expr := info.toConstantVal.type

/-- The value, of an opaque constant too. -/
def value? : ConstantInfo Expr → Option Expr
  | defnInfo _ value | thmInfo _ value | opaqueInfo _ value => some value
  | _ => none

def isThm : ConstantInfo Expr → Bool
  | thmInfo _ _ => true
  | _ => false

end ConstantInfo

/-- The constants of the compiled module, under their printed names. Imported constants are not among them. -/
abbrev Module (Expr : Type) := Dict String (ConstantInfo Expr)

/-- A name is meant by its last components. -/
def is_named (name target : String) : Bool := name == target || ('.' :: target.toList).isSuffixOf name.toList

def selectedName (names : List String) (name : String) : Bool := names.any (is_named name)

/-- What is reported of a constant that a type depends on. -/
structure Row where
  name : String
  type : String
  value : Option String
deriving DecidableEq

def Row.json (row : Row) : Json :=
  .obj [("name", .str row.name), ("type", .str row.type), ("value", row.value.elim .null .str)]

section
variable {Expr : Type} (getUsedConstants : Expr → List String) (repr : Expr → String)
variable (module : Module Expr) (mutableNames : List String)

/-- The value that is looked into. -/
def seen_value (name : String) (info : ConstantInfo Expr) : Option Expr :=
  if info.isThm || selectedName mutableNames name then none else info.value?

/-- The constants that are put on the queue for one that is found. -/
def used (name : String) (info : ConstantInfo Expr) : List String :=
  getUsedConstants info.type ++ (seen_value mutableNames name info).elim [] getUsedConstants

def row (name : String) (info : ConstantInfo Expr) : Row :=
  ⟨name, repr info.type, (seen_value mutableNames name info).map repr⟩

/-- The loop of `localTypeDependencies`; it ends since each constant of the module is followed once. -/
def dependency_loop : List String → List String → List Row → List Row
  | [], _, result => result
  | name :: pending, seen, result =>
    if name ∈ seen then dependency_loop pending seen result
    else
      match _hfound : module.get? name with
      | none => dependency_loop pending (name :: seen) result
      | some info =>
        dependency_loop (pending ++ used getUsedConstants mutableNames name info) (name :: seen)
          (result ++ [row repr mutableNames name info])
termination_by pending seen => ((module.keys.filter (· ∉ seen)).length, pending.length)
decreasing_by
  · exact Prod.Lex.right _ (Nat.lt_succ_self _)
  · rcases Nat.lt_or_eq_of_le (filter_new_le module.keys seen name) with h | h
    · exact Prod.Lex.left _ _ h
    · rw [h]
      exact Prod.Lex.right _ (Nat.lt_succ_self _)
  · rename_i hnew
    exact Prod.Lex.left _ _ (filter_new_lt ((module.mem_keys_iff name).mpr ⟨info, _hfound⟩) hnew)

/-- The rows, sorted by name. -/
def localTypeDependencies (type : Expr) : List Row :=
  (dependency_loop getUsedConstants repr module mutableNames (getUsedConstants type) [] []).mergeSort fun a b => a.name ≤ b.name

/-! ### What the loop finds -/

/-- The constants that one leads to. -/
def next (name : String) : List String := (module.get? name).elim [] (used getUsedConstants mutableNames name)

/-- The row of a constant of the module. -/
def row_of (name : String) : Option Row := (module.get? name).map (row repr mutableNames name)

variable {getUsedConstants repr module mutableNames}

theorem dependency_loop_eq (pending seen : List String) (result : List Row) :
    dependency_loop getUsedConstants repr module mutableNames pending seen result =
      result ++ (sweep (next getUsedConstants module mutableNames) module.keys pending seen).filterMap
        (row_of repr module mutableNames) := by
  fun_induction dependency_loop getUsedConstants repr module mutableNames pending seen result with
  | case1 seen result => rw [sweep, List.filterMap_nil, List.append_nil]
  | case2 name pending seen result hseen ih => rw [sweep, if_pos hseen, ih]
  | case3 name pending seen result hnew hfound ih =>
    have hunknown : name ∉ module.keys := (module.get?_eq_none_iff name).mp hfound
    have hrow : row_of repr module mutableNames name = none := by rw [row_of, hfound]; rfl
    rw [sweep, if_neg hnew, if_neg hunknown, List.filterMap_cons_none hrow, ih]
  | case4 name pending seen result hnew info hfound ih =>
    have hknown : name ∈ module.keys := (module.mem_keys_iff name).mpr ⟨info, hfound⟩
    have hrow : row_of repr module mutableNames name = some (row repr mutableNames name info) := by rw [row_of, hfound]; rfl
    have hnext : next getUsedConstants module mutableNames name = used getUsedConstants mutableNames name info := by
      rw [next, hfound]; rfl
    rw [sweep, if_neg hnew, if_pos hknown, List.filterMap_cons_some hrow, ih, hnext, List.append_assoc]
    rfl

end

end LeanFlow.Profiles
