import LeanFlow.General.Dict
import LeanFlow.General.Except
import LeanFlow.General.Json
import LeanFlow.Goals.Dag
import LeanFlow.Profiles.Inspector
import LeanFlow.Source.Declarations

/-! Verification of a source proposal of a native workflow.

The proposal is the agent's copy of the project. `verify_proposal` compares it with the
baseline, file by file and declaration by declaration, and has it built and inspected in a
second copy. What LeanProbe, the build and the inspector say is the host's. -/
namespace LeanFlow.Native
open General Source
open Goals (path_parts lean_suffix)
open Profiles (is_named)

/-! ### What is outside -/

/-- A declaration as LeanProbe parses it; an anonymous one has an empty name. -/
structure Segment where
  kind : String
  name : String
  text : Text
deriving DecidableEq

/-- What the inspector prints of a constant. -/
structure Row where
  name : String
  type : String
  levels : List String
  dependencies : List Json
  axioms : List String

/-- A constant and the digest of what must not change of it. -/
structure Profile where
  row : Row
  sha256 : String

/-- The project that a source is compiled in: the canonical one or the frozen copy. -/
inductive Project where
  | canonical
  | frozen
deriving DecidableEq

structure Host (β : Type) where
  C : CharClass
  decode : β → Option Text
  sha256 : β → String
  /-- `digest(json.dumps(value))`. -/
  digest : Json → String
  segment_file : Text → List Segment
  /-- The records for a module with this source; there are none when it does not compile. -/
  inspect : Project → String → Text → List String → Option (List Row)

/-- What one verification is given, and what it reads and is told while it runs. -/
structure Trial (β : Type) where
  baseline : Dict String β
  proposed : Dict String β
  workflow : String
  active_file : String := ""
  allowed_axioms : List String := []
  /-- The canonical sources when they are frozen, the frozen ones before and after the changes are written. -/
  canonical : Dict String β
  copied : Dict String β
  frozen : Dict String β
  build : Bool
  generation : String
  later_generation : String
  stopped : Bool := false
  later_stopped : Bool := false

/-- How a verification ends early. -/
inductive Stop where
  | rejected (error : String)
  | interrupted
  | value_error (error : ValueError)

structure Receipt where
  accepted : Bool
  error : String := ""
  environment_generation : Option String := none
  files : Dict String Text := .empty
  sha256 : Dict String String := .empty
  profiles : Dict String (Dict String Profile) := .empty

/-! ### The rules -/

def refuse (c : Prop) [Decidable c] (error : String) : Except Stop Unit := if c then .error (.rejected error) else .ok ()

def check_active (stopped : Bool) : Except Stop Unit := if stopped then .error .interrupted else .ok ()

def CONFIG : List String := ["lakefile.lean", "lakefile.toml", "lean-toolchain", "lake-manifest.json"]

/-- `Path(path).name`. -/
def file_name (path : String) : String := String.ofList ((path_parts path).getLast?.getD [])

/-- `Path(relative).with_suffix("").as_posix().replace("/", ".")` of a Lean file. -/
def module_name (relative : String) : String :=
  let name := ['.'].intercalate (path_parts relative)
  String.ofList (name.take (name.length - 5))

def proofs : List String := ["theorem", "lemma", "example"]

section Verify

variable {β : Type} [DecidableEq β] (H : Host β) (t : Trial β)

namespace Trial

def changed : List (String × β) := t.proposed.items.filter fun item => t.baseline.get? item.1 ≠ some item.2

def lean_changes : List (String × β) := t.changed.filter fun item => lean_suffix item.1

def statement_draft : Bool := t.workflow ∈ ["draft", "formalize"]

end Trial

def decoded (data : β) : Except Stop Text :=
  match H.decode data with
  | some text => .ok text
  | none => .error (.value_error ⟨"invalid UTF-8"⟩)

def spans_of (text : Text) : Except Stop (List (Nat × Nat)) := (sorry_spans H.C text).mapError .value_error

/-- List LeanProbe's parsed declaration names for independent kernel inspection. -/
def declaration_names (source : Text) : List String :=
  (((H.segment_file source).map (·.name)).filter (· ≠ "")).eraseDups

/-- Retain non-proof declaration bytes so type equality cannot hide changed definitions. -/
def protected_definitions (source : Text) : Dict String Text :=
  Dict.ofList (((H.segment_file source).filter fun segment => segment.name ≠ "" ∧ segment.kind ∉ proofs).map fun segment =>
    (segment.name, strip H.C segment.text))

/-- Which files may change, and how. -/
def check_files : Except Stop Unit := do
  refuse (t.changed = []) "No source changes were submitted"
  refuse (t.changed.any fun item => !lean_suffix item.1 && !(t.statement_draft && file_name item.1 == "Blueprint.md"))
    "Only Lean source changes can be promoted"
  refuse (t.active_file ≠ "" ∧ t.changed.any fun item =>
      item.1 ∈ t.baseline.keys && item.1 != t.active_file && file_name item.1 != "Blueprint.md")
    "An original source outside the assigned file was changed"
  refuse (t.lean_changes = []) "No Lean source changes were submitted"

/-- No changed source has a hole, but in a draft. -/
def check_holes : Except Stop Unit := do
  let holes ← t.lean_changes.anyM fun item => do
    let text ← decoded H item.2
    let spans ← spans_of H text
    .ok (spans ≠ [])
  refuse (holes = true ∧ t.statement_draft = false) "Submitted Lean sources still contain sorry/admit"

/-- A file keeps the definitions that it had. -/
def check_definitions (item : String × β) : Except Stop Unit := do
  let content ← decoded H item.2
  let definitions := protected_definitions H content
  if t.statement_draft then
    let placeholders ← definitions.items.anyM fun definition => do
      let spans ← spans_of H definition.2
      .ok (spans ≠ [])
    refuse (placeholders = true) ("Construction placeholders remain in " ++ item.1)
  match t.baseline.get? item.1 with
  | none => .ok ()
  | some original => do
    let original ← decoded H original
    refuse ((protected_definitions H original).items.any fun definition => definitions.get? definition.1 ≠ some definition.2)
      ("An original non-proof definition changed in " ++ item.1)

/-- What must not change of a constant. -/
def Row.fields (row : Row) : Json := .arr [.arr (row.levels.map .str), .str row.type, .arr row.dependencies]

/-- The profile of a name, which must be that of one constant. -/
def profile (rows : List Row) (name : String) : Except ValueError (String × Profile) :=
  match rows.filter fun row => is_named row.name name with
  | [row] => if row.type = "" then .error ⟨"missing raw kernel type"⟩ else .ok (name, ⟨row, H.digest row.fields⟩)
  | _ => .error ⟨"expected one exact compiled declaration for " ++ name⟩

/-- Compile untouched source before importing trusted introspection support. -/
def compiled_type_profiles (project : Project) (source : Text) (names : List String) (module : String) :
    Except ValueError (Dict String Profile) :=
  match H.inspect project module source names with
  | none => .error ⟨"kernel type inspection failed"⟩
  | some rows => do .ok (Dict.ofList (← names.mapM (profile H rows)))

/-- The constants of a file are sound, and those that it had are the same. -/
def check_constants (item : String × β) : Except Stop (String × Dict String Profile) := do
  let content ← decoded H item.2
  let names := declaration_names H content
  refuse (names = []) ("No inspectable declarations in " ++ item.1)
  match compiled_type_profiles H .frozen content names (module_name item.1) with
  | .error _ => .error (.rejected ("Kernel inspection failed for " ++ item.1))
  | .ok result => do
    let permitted := t.allowed_axioms ++ (if t.statement_draft then ["sorryAx"] else [])
    refuse (result.items.any fun entry => entry.2.row.axioms.any (· ∉ permitted)) ("Unapproved axioms in " ++ item.1)
    match t.baseline.get? item.1 with
    | none => .ok (item.1, result)
    | some original => do
      let original ← decoded H original
      let original_names := declaration_names H original
      refuse (original_names.any (· ∉ names)) ("An original declaration was removed in " ++ item.1)
      match compiled_type_profiles H .canonical original original_names (module_name item.1) with
      | .error _ => .error (.rejected ("Original kernel declaration types changed or could not be verified in " ++ item.1))
      | .ok before => do
        refuse (original_names.any fun name => (before.get? name).map (·.sha256) ≠ (result.get? name).map (·.sha256))
          ("Original kernel declaration types changed or could not be verified in " ++ item.1)
        .ok (item.1, result)

def verify : Except Stop Receipt := do
  check_active t.stopped
  refuse ((t.baseline.keys ++ t.proposed.keys).any fun path =>
      file_name path ∈ CONFIG && decide (t.proposed.get? path ≠ t.baseline.get? path))
    "Native proposals cannot change the toolchain or dependency configuration"
  refuse (t.baseline.keys.any (· ∉ t.proposed.keys)) "Native proposals cannot delete original source files"
  if t.workflow = "review" then
    .ok { accepted := t.changed = [], error := if t.changed = [] then "" else "Review is read-only" }
  else do
    check_files t
    check_holes H t
    t.lean_changes.forM (check_definitions H t)
    refuse (!t.copied.equals t.baseline || !t.canonical.equals t.baseline) "Canonical source changed during verification"
    refuse (!t.frozen.equals t.proposed) "Source changed while the submission was being frozen"
    refuse (t.build = false) "Independent project build failed"
    let profiles ← t.lean_changes.mapM (check_constants H t)
    check_active t.later_stopped
    refuse (t.later_generation ≠ t.generation) "Canonical Lean dependencies changed during verification"
    let files ← t.changed.mapM fun item => do .ok (item.1, ← decoded H item.2)
    .ok {
      accepted := true
      environment_generation := some t.generation
      files := Dict.ofList files
      sha256 := Dict.ofList (t.changed.map fun item => (item.1, H.sha256 item.2))
      profiles := Dict.ofList profiles }

/-- Verify frozen bytes in a second workspace the native agent cannot mutate. -/
def verify_proposal : Except Stop Receipt :=
  match verify H t with
  | .error (.rejected error) => .ok { accepted := false, error }
  | result => result

end Verify

end LeanFlow.Native
