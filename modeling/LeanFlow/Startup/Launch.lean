import LeanFlow.General.Except
import LeanFlow.General.Json

/-! Launching a resume: the clone of a saved run, and what a failed startup publishes.

A run is a directory with the object in `state.json` and other artifacts. A resume
copies the directory under a new run id and hands it to the controller, which
restores it. When anything raises before the controller runs, the failure is
published in the copy. -/
namespace LeanFlow.Startup
open General

inductive Raised where
  | value_error (message : String)
  | key_error (key : String)
  | other (message : String)
deriving DecidableEq

/-- The directory of one run; `state` is `none` when there is no `state.json`. -/
structure Run where
  state : Option Fields
  artifacts : List (String × Json) := []
  symlinks : Bool := false

/-- The runs of a project by their ids. -/
abbrev Runs := Dict String Run

/-! ### Cloning a run -/

/-- `_IDENTIFIER`. -/
def identifier (value : String) : Bool :=
  value.toList.all (fun c => c.isAlphanum || c == '_' || c == '-') &&
    0 < value.length && value.length ≤ 80

/-- `_PATH_FIELDS`. -/
def path_fields : List String :=
  ["path", "workspace", "log_path", "scratch_path", "candidate_path", "plan_path", "dag_path",
    "baseline_path", "source_path", "result_path", "report_path", "evidence_path", "metadata_path",
    "artifacts"]

/-- A path at or below the old directory, moved to the new one. -/
def relocate_path (old new value : String) : String :=
  if value = old ∨ (old ++ "/").toList <+: value.toList then
    new ++ String.ofList (value.toList.drop old.toList.length)
  else value

mutual

/-- Remap artifact paths; `key` is the field the value stands in. -/
def relocate (old new key : String) : Json → Json
  | .obj fields => .obj (relocate_fields old new fields)
  | .arr items => .arr (relocate_items old new key items)
  | .str value => .str (if key ∈ path_fields then relocate_path old new value else value)
  | value => value

def relocate_items (old new key : String) : List Json → List Json
  | [] => []
  | item :: items => relocate old new key item :: relocate_items old new key items

def relocate_fields (old new : String) : Fields → Fields
  | [] => []
  | (name, item) :: fields => (name, relocate old new name item) :: relocate_fields old new fields

end

theorem get?_relocate_fields (old new : String) (fields : Fields) (name : String) :
    Fields.get? (relocate_fields old new fields) name = (fields.get? name).map (relocate old new name) := by
  induction fields with
  | nil => rfl
  | cons field fields ih =>
    obtain ⟨k, v⟩ := field
    rw [relocate_fields, Fields.get?, Fields.get?, Dict.find, Dict.find]
    by_cases h : k = name
    · rw [if_pos h, if_pos h, Option.map_some, h]
    · rw [if_neg h, if_neg h]
      exact ih

variable (directory : String → String)

/-- The state of the copy. -/
def cloned_state (previous current : String) (state : Fields) : Fields :=
  (relocate_fields (directory previous) (directory current) state).update
    [("run_id", .str current), ("resumed_from", .str previous), ("parent_run_id", .str previous),
      ("terminal", .bool false)]

def clone_resume_run (previous current : String) (runs : Runs) : Except Raised Runs :=
  if ¬ identifier previous ∨ ¬ identifier current then .error (.value_error "invalid resume run ID")
  else
    match runs.get? previous, runs.get? current with
    | some { state := some state, artifacts := artifacts, symlinks := symlinks }, none =>
      if symlinks then .error (.value_error "resume artifacts cannot contain symlinks")
      else if (state.get? "run_id").bind Json.text ≠ some previous then
        .error (.value_error "resume snapshot does not match its run ID")
      else .ok (runs.set current {
        state := some (cloned_state directory previous current state)
        artifacts := artifacts.map fun artifact =>
          (artifact.1, relocate (directory previous) (directory current) "" artifact.2) })
    | _, _ => .error (.value_error "resume source does not exist or destination already exists")

/-! ### Restoring a run -/

def retired_engine : Raised :=
  .value_error ("This run used the retired API engine. Its artifacts are preserved; " ++
    "start a new native-backend run.")

/-- What a resumed controller continues with. -/
structure Resumed where
  dag : Json
  jobs : List Json
  consumed : Int

/-- `_restore`: the version comes first, then everything else the directory holds. -/
def restore (proceed : Run → Except Raised Resumed) (run : Run) : Except Raised Resumed :=
  match run.state with
  | none => .error (.other "No such file or directory")
  | some state =>
    if (state.get? "version").bind Json.number ≠ some 2 then .error retired_engine
    else proceed run

/-! ### A failed startup -/

/-- What a failing launch knows. -/
structure Failure where
  error : String
  /-- The mode and the mapping of the configuration, once it is read. -/
  config : Option (Json × Json) := none
  publish_live : Bool := true
  time : String := ""

def contains (part text : String) : Bool := text.toList.tails.any part.toList.isPrefixOf

def Failure.status (message : String) (failure : Failure) : String :=
  if contains "protected source changed" message then "source_conflict"
  else if failure.publish_live then "error" else "environment_error"

def Failure.guidance (message : String) : String :=
  if contains "protected source changed" message then
    "Compare current source with this run's saved baselines and resolve the conflict before resuming. " ++
      "The original snapshot was preserved; no source was automatically reaccepted."
  else "Correct the reported startup problem, then resume the saved run or launch again."

variable (redact : String → String) (default_mode : Json)

/-- The state a failed startup starts from: that of its own run, else nothing. -/
def existing_state (run_id previous : String) (runs : Runs) : Fields :=
  match (runs.get? run_id).bind Run.state with
  | none => []
  | some state =>
    let owner := (state.get? "run_id").bind Json.text
    if owner = some run_id ∨ owner = some previous then state else []

/-- What a failed startup assigns. -/
def outcome (run_id : String) (failure : Failure) (state : Fields) : Fields :=
  let message := String.ofList ((redact failure.error).toList.take 16000)
  let mode := (state.get? "mode").getD ((failure.config.map Prod.fst).getD default_mode)
  [("version", .num 1), ("run_id", .str run_id), ("mode", mode),
    ("phase", .str (failure.status message)), ("status", .str (failure.status message)),
    ("terminal", .bool true), ("error", .str message), ("next_step", .str (Failure.guidance message)),
    ("startup_failed", .bool true), ("finished_at", .str failure.time), ("updated_at", .str failure.time)]

/-- What it fills in where the state says nothing. -/
def defaults (failure : Failure) : Fields :=
  [("started_at", .str failure.time),
    ("dag", .obj [("nodes", .arr []), ("roots", .arr []), ("revision", .num 0)]),
    ("jobs", .arr []), ("changes", .arr []),
    ("metrics", .obj [("api_calls", .num 0), ("cost_usd", .null)])]

def lineage (previous : String) : Fields :=
  if previous = "" then [] else [("resumed_from", .str previous), ("parent_run_id", .str previous)]

/-- The published state of a failed startup. -/
def failed_state (run_id previous : String) (failure : Failure) (state : Fields) : Fields :=
  let state := (defaults failure).foldl (fun state field => Fields.setdefault field.1 field.2 state)
    (state.update (outcome redact default_mode run_id failure state))
  let state := state.update (lineage previous)
  match failure.config with
  | none => state
  | some config => Fields.setdefault "config" config.2 state

/-- `_startup_failure`, as far as the saved runs go. -/
def startup_failure (run_id previous : String) (failure : Failure) (runs : Runs) : Runs :=
  let run := (runs.get? run_id).getD { state := none }
  runs.set run_id { run with
    state := some (failed_state redact default_mode run_id previous failure (existing_state run_id previous runs)) }

/-! ### Failed resumes -/

/-- A launch that clones a run and then fails; the controller may have persisted a state before. -/
structure Attempt where
  run_id : String
  failure : Failure
  persisted : Option Fields := none

def Attempt.persist (attempt : Attempt) (runs : Runs) : Runs :=
  match runs.get? attempt.run_id, attempt.persisted with
  | some run, some state => runs.set attempt.run_id { run with state := some state }
  | _, _ => runs

def failed_resume (previous : String) (attempt : Attempt) (runs : Runs) : Except Raised Runs := do
  let runs ← clone_resume_run directory previous attempt.run_id runs
  .ok (startup_failure redact default_mode attempt.run_id previous attempt.failure (attempt.persist runs))

/-- Each attempt resumes the one before it. -/
def failed_resumes (previous : String) : List Attempt → Runs → Except Raised Runs
  | [], runs => .ok runs
  | attempt :: attempts, runs => do
    let runs ← failed_resume directory redact default_mode previous attempt runs
    failed_resumes attempt.run_id attempts runs

/-- A resume of a run under a new id. -/
def resume (proceed : Run → Except Raised Resumed) (previous current : String) (runs : Runs) :
    Except Raised Resumed := do
  let runs ← clone_resume_run directory previous current runs
  match runs.get? current with
  | none => .error (.other "No such file or directory")
  | some run => restore proceed run

end LeanFlow.Startup
