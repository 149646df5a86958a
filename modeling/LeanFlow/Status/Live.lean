import LeanFlow.General.Json
import Mathlib.Data.Rat.Defs

/-! The live status of a workflow.

One JSON file says which process runs the workflow and how far it is. Processes claim it,
save it, refresh its heartbeat and normalize it when its owner is gone, each under the
file's lock. A process is known by its PID and by the fingerprint of the token it was
launched with. -/
namespace LeanFlow.Status
open General

abbrev Payload := Dict String Json

/-! ### Values -/

/-- What Python makes of a text: `int(text)` and `str(value)`, `strip` and `lower`. -/
structure Python where
  int_of : String → Option Int
  str_of : Json → String
  strip : String → String
  lower : String → String

def truthy : Json → Bool
  | .null => false
  | .bool value => value
  | .num value => value ≠ 0
  | .str value => value ≠ ""
  | .arr items => !items.isEmpty
  | .obj fields => !fields.isEmpty

section values

variable (py : Python)

/-- `int(value or 0)`, and 0 where that raises. -/
def integer : Option Json → Int
  | some (.bool true) => 1
  | some (.num value) => if 0 ≤ value then value.floor else value.ceil
  | some (.str value) => if value = "" then 0 else (py.int_of value).getD 0
  | _ => 0

/-- `str(value or "")`. -/
def text (value : Option Json) : String :=
  match value with
  | some value => if truthy value then py.str_of value else ""
  | none => ""

end values

/-! ### Identities -/

/-- `ProcessIdentity`. -/
structure Identity where
  pid : Int
  process_group_id : Int
  session_id : Int
  token_sha256 : String
deriving DecidableEq

def Identity.verifiable (identity : Identity) : Bool := identity.pid > 1 && identity.token_sha256 ≠ ""

/-- What a process sees: itself, what can be read of the process that has a PID now, and
whether there seems to be one. -/
structure World where
  self : Identity
  process : Int → Option Identity
  seems_alive : Int → Bool

/-- A process with the token, in the group and the session that the identity names. -/
def Identity.is (identity process : Identity) : Bool :=
  process.token_sha256 = identity.token_sha256 &&
    (identity.process_group_id ≤ 0 || process.process_group_id = identity.process_group_id) &&
    (identity.session_id ≤ 0 || process.session_id = identity.session_id)

def process_identity_matches (world : World) (identity : Identity) : Bool :=
  if !identity.verifiable then false
  else if identity.pid = world.self.pid then identity.is world.self
  else (world.process identity.pid).any identity.is

section status

variable (py : Python)

def process_identity_from_mapping (payload : Payload) : Identity where
  pid := integer py (payload.get? "process_id")
  process_group_id := integer py (payload.get? "process_group_id")
  session_id := integer py (payload.get? "process_session_id")
  token_sha256 := py.strip (text py (payload.get? "process_token_sha256"))

def process_identity_details (identity : Identity) : List (String × Json) :=
  [("process_id", .num identity.pid), ("process_group_id", .num identity.process_group_id),
    ("process_session_id", .num identity.session_id), ("process_token_sha256", .str identity.token_sha256)]

def identity_is_current_process_owner (persisted current : Identity) : Bool :=
  if !persisted.verifiable || !current.verifiable then false
  else if persisted.pid ≠ current.pid || persisted.token_sha256 ≠ current.token_sha256 then false
  else if persisted.process_group_id > 0 && persisted.process_group_id ≠ current.process_group_id then false
  else persisted.session_id ≤ 0 || persisted.session_id = current.session_id

def workflow_process_identity_is_live (world : World) (payload : Payload) : Bool :=
  let identity := process_identity_from_mapping py payload
  if identity.verifiable then process_identity_matches world identity
  else identity.pid > 0 && world.seems_alive identity.pid

/-! ### Saving and claiming -/

def update (payload : Payload) (fields : List (String × Json)) : Payload := fields.foldl (fun payload field => payload.set field.1 field.2) payload

def setdefault (payload : Payload) (key : String) (value : Json) : Payload := if (payload.get? key).isSome then payload else payload.set key value

def attach_current_process_identity (world : World) (payload : Payload) : Payload :=
  if integer py (payload.get? "process_id") ≠ world.self.pid then payload
  else (process_identity_details world.self).foldl (fun payload field => setdefault payload field.1 field.2) payload

/-- The owner that a write is refused for. -/
structure OwnerConflict where
  identity : Identity
  phase : String
  run_id : String

def conflict (payload : Payload) : OwnerConflict where
  identity := process_identity_from_mapping py payload
  phase := text py (payload.get? "phase")
  run_id := text py (payload.get? "run_id")

/-- The recorded owner is verified and alive. -/
def owner_is_live (world : World) (payload : Payload) : Bool :=
  (process_identity_from_mapping py payload).verifiable && process_identity_matches world (process_identity_from_mapping py payload)

def same_owner (world : World) (payload : Payload) : Bool :=
  identity_is_current_process_owner (process_identity_from_mapping py payload) world.self

def save_workflow_live_status (world : World) (payload current : Payload) : Except OwnerConflict Payload :=
  if owner_is_live py world current && !same_owner py world current then .error (conflict py current)
  else .ok (attach_current_process_identity py world payload)

inductive StartupPhase where
  | starting
  | reconciling

def StartupPhase.word : StartupPhase → String
  | .starting => "starting"
  | .reconciling => "reconciling"

def startup_phase (phase : String) : Bool := phase = "starting" || phase = "reconciling"

/-- `str(payload.get("phase")).strip().lower()`. -/
def phase_of (payload : Payload) : String := py.lower (py.strip (text py (payload.get? "phase")))

def startup_previous_owner_metadata (payload : Payload) (identity : Identity) : Json :=
  .obj (("phase", .str (phase_of py payload)) :: process_identity_details identity ++
    (["run_id", "updated_at", "runtime_heartbeat_at"].filter fun key => text py (payload.get? key) ≠ "").map
      fun key => (key, .str (text py (payload.get? key))))

def is_mapping : Option Json → Bool
  | some (.obj _) => true
  | _ => false

def mark_workflow_live_status_startup (world : World) (phase : StartupPhase) (heartbeat : String) (metadata : List (String × Json))
    (payload : Payload) : Except OwnerConflict Payload :=
  let previous_identity := process_identity_from_mapping py payload
  let same_owner := same_owner py world payload
  if owner_is_live py world payload && !same_owner then .error (conflict py payload)
  else
    let interrupted_startup := !same_owner && previous_identity.pid > 0 && startup_phase (phase_of py payload)
    let retained_previous_owner := payload.get? "startup_previous_owner"
    let claimed := update (update (update payload metadata) (process_identity_details world.self))
      [("version", .num 1), ("phase", .str phase.word), ("updated_at", .str heartbeat), ("runtime_heartbeat_at", .str heartbeat),
        ("startup_reconciliation_pending", .bool true), ("interrupt_source", .str ""), ("held_locks", .num 0)]
    let claimed := ["exit_code", "reason", "stale_snapshot", "stale_process_id", "stale_held_locks"].foldl (fun payload key => payload.erase key) claimed
    .ok (if interrupted_startup then
        claimed.set "startup_previous_owner" (startup_previous_owner_metadata py payload previous_identity)
      else if !same_owner && is_mapping retained_previous_owner then
        claimed.set "startup_previous_owner" (retained_previous_owner.getD .null)
      else if !same_owner then claimed.erase "startup_previous_owner"
      else claimed)

/-! ### Heartbeats -/

/-- The process of a heartbeat is the caller, unless it names another. -/
def touch_workflow_runtime_heartbeat (world : World) (process_id : Option Int) (heartbeat : String) (payload : Payload) : Payload :=
  if integer py (payload.get? "process_id") ≠ process_id.getD world.self.pid then payload
  else update payload [("updated_at", .str heartbeat), ("runtime_heartbeat_at", .str heartbeat)]

def touch_workflow_live_status_from_activity (world : World) (timestamp event_type message : String) (payload : Payload) : Payload :=
  if integer py (payload.get? "process_id") ≠ world.self.pid then payload
  else update payload [("updated_at", .str timestamp), ("runtime_heartbeat_at", .str timestamp), ("last_activity_type", .str event_type),
    ("last_activity_message", .str (String.ofList (message.toList.take 500)))]

/-! ### Normalizing -/

def terminal_phase (phase : String) : Bool :=
  ["completed", "dead", "exited", "failed", "interrupted", "stopped", "verified"].contains phase

/-- A snapshot that is stale already holds no locks. -/
def drop_stale_locks (payload : Payload) : Payload × Bool :=
  let held_locks := integer py (payload.get? "held_locks")
  if (payload.get? "stale_snapshot").any truthy && held_locks > 0 then
    ((setdefault payload "stale_held_locks" (.num held_locks)).set "held_locks" (.num 0), true)
  else (payload, false)

/-- The snapshot of an owner that is gone. -/
def mark_stale (payload : Payload) : Payload :=
  let process_id := integer py (payload.get? "process_id")
  let stale_phase := phase_of py payload
  let held_locks := integer py (payload.get? "held_locks")
  let stale := if startup_phase stale_phase && (process_identity_from_mapping py payload).pid > 0 &&
      !is_mapping (payload.get? "startup_previous_owner") then
    payload.set "startup_previous_owner" (startup_previous_owner_metadata py payload (process_identity_from_mapping py payload))
  else payload
  let stale := update stale [("stale_snapshot", .bool true), ("stale_process_id", .num process_id), ("process_id", .num 0)]
  let stale := (if held_locks > 0 then stale.set "stale_held_locks" (.num held_locks) else stale).set "held_locks" (.num 0)
  if terminal_phase stale_phase then stale else stale.set "phase" (.str "dead")

/-- `_normalize_workflow_live_status_payload`: the snapshot to show, and whether it must be written. -/
def normalize (world : World) (payload : Payload) : Payload × Bool :=
  let (normalized, changed) := drop_stale_locks py payload
  if integer py (normalized.get? "process_id") ≤ 0 || workflow_process_identity_is_live py world normalized then (normalized, changed)
  else (mark_stale py normalized, true)

/-- The file after a load that had read `seen` before it took the lock. -/
def load_workflow_live_status (world : World) (seen current : Payload) : Payload :=
  if (normalize py world seen).2 && (normalize py world current).2 then (normalize py world current).1 else current

end status

end LeanFlow.Status
