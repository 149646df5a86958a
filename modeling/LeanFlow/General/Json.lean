import LeanFlow.General.Dict
import Mathlib.Data.Rat.Defs

/-! JSON values and the fields of JSON objects. -/
namespace LeanFlow.General

inductive Json where
  | null
  | bool (value : Bool)
  | num (value : Rat)
  | str (value : String)
  | arr (items : List Json)
  | obj (fields : List (String × Json))

/-- The text, when the value is one. -/
def Json.text : Json → Option String
  | .str value => some value
  | _ => none

/-- The number, when the value is one. -/
def Json.number : Json → Option Rat
  | .num value => some value
  | _ => none

/-- The fields of an object, in their order; of two with one name the first counts. -/
abbrev Fields := List (String × Json)

namespace Fields

def get? (fields : Fields) (name : String) : Option Json := Dict.find name fields

/-- Assign one field after the other. -/
def update (fields : Fields) : Fields → Fields
  | [] => fields
  | field :: rest => update (Dict.assign field.1 field.2 fields) rest

/-- Assign a field that is missing. -/
def setdefault (name : String) (value : Json) (fields : Fields) : Fields :=
  if (fields.get? name).isSome then fields else Dict.assign name value fields

/-! ### Reading back -/

theorem get?_assign (name : String) (value : Json) (fields : Fields) (x : String) :
    get? (Dict.assign name value fields) x = if x = name then some value else fields.get? x :=
  Dict.find_assign name value fields x

/-- Fields that are not assigned stay. -/
theorem get?_update_of_not_mem {changes : Fields} {x : String} (hx : x ∉ changes.map Prod.fst)
    (fields : Fields) : (fields.update changes).get? x = fields.get? x := by
  induction changes generalizing fields with
  | nil => rfl
  | cons field rest ih =>
    obtain ⟨hne, hrest⟩ := not_or.mp (List.mem_cons.not.mp hx)
    rw [update, ih hrest, get?_assign, if_neg hne]

/-- A field that is assigned once has the value it was given. -/
theorem get?_update {changes : Fields} (hnodup : (changes.map Prod.fst).Nodup) {x : String} {value : Json}
    (hx : (x, value) ∈ changes) (fields : Fields) : (fields.update changes).get? x = some value := by
  induction changes generalizing fields with
  | nil => cases hx
  | cons field rest ih =>
    obtain ⟨hnot, hrest⟩ := List.nodup_cons.mp hnodup
    rcases List.mem_cons.mp hx with rfl | hx
    · rw [update, get?_update_of_not_mem hnot, get?_assign, if_pos rfl]
    · exact ih hrest hx _

/-- A default replaces no value. -/
theorem get?_setdefault_of_some {x : String} {old : Json} {fields : Fields} (h : fields.get? x = some old)
    (name : String) (value : Json) : (setdefault name value fields).get? x = some old := by
  unfold setdefault
  split
  · exact h
  · rename_i hnone
    rw [get?_assign, if_neg, h]
    rintro rfl
    exact hnone (by rw [h]; rfl)

theorem get?_setdefaults_of_some {x : String} {old : Json} (values : Fields) {fields : Fields}
    (h : fields.get? x = some old) :
    Fields.get? (values.foldl (fun fields field => setdefault field.1 field.2 fields) fields) x = some old := by
  induction values generalizing fields with
  | nil => exact h
  | cons field values ih => exact ih (get?_setdefault_of_some h field.1 field.2)

end Fields
end LeanFlow.General
