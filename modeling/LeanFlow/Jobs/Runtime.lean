import LeanFlow.General.Modify
import LeanFlow.General.Program
import LeanFlow.Source.Rendering
import LeanFlow.Source.Scratch

/-! Native jobs and the campaign's call budget: the controller's state.

A job is one native session with a reservation of calls. Jobs are only ever
appended, so a reference to a job object is its position in the list. What the
accounting, the admission and the hand-over of work never read (phases, timing,
costs, models, transcripts) is left out. -/
namespace LeanFlow.Jobs
open General Goals Source

/-! ### Jobs -/

inductive Role where
  | prover
  | negation
  | orchestrator
  | review
  | research
deriving DecidableEq, Repr

def Role.name : Role → String
  | .prover => "prover"
  | .negation => "negation"
  | .orchestrator => "orchestrator"
  | .review => "review"
  | .research => "research"

/-- The status of a job: the controller's own and those a session reports. -/
inductive JobStatus where
  | running
  | queued
  | completed
  | provider_error
  | environment_error
  | source_conflict
  | error
  | interrupted
  | timeout
  | resume_pending
  | context_limit
  | stale
  | other (reported : String)
deriving DecidableEq, Repr

structure Job where
  id : String
  node_id : String
  role : Role
  status : JobStatus
  api_calls : Nat
  api_budget : Int
  reserved_calls : Int
  previous_api_calls : Nat
  accounted : Bool := false
  resumed : Bool := false
  input_tokens : Nat := 0
  output_tokens : Nat := 0
  previous_input_tokens : Nat := 0
  previous_output_tokens : Nat := 0
  usage_known : Bool := false
  purpose : String := ""
  node_revision : Nat := 0
  scratch_holes : List Nat := []
  negation_assignment : Bool := false
deriving DecidableEq

/-- A session that has a call reserved and is not settled yet. -/
def Job.live (job : Job) : Bool := job.status == .running && !job.accounted

/-! ### Files of a job -/

inductive JobFile where
  | scratch
  | source_before
  | plan
  | request_count
deriving DecidableEq, Repr

/-- Token counters of one invocation, as far as it knows them. -/
structure Usage where
  input_tokens : Option Int := none
  output_tokens : Option Int := none
deriving DecidableEq

/-- What stands at a path; `is_file` follows a link, the controller does not. A ledger keeps the
calls admitted so far and the usage its session wrote last. -/
inductive Entry where
  | text (content : Text)
  | link (content : Text)
  /-- A file whose bytes are not UTF-8, and what the decoder says of them. -/
  | undecodable (error : ValueError)
  | ledger (limit : Option Int) (used : Int) (usage : Usage)
deriving DecidableEq

/-- What `read_source` makes of a regular file. -/
def Entry.regular : Entry → Option (Except ValueError Text)
  | .text content => some (.ok content)
  | .undecodable error => some (.error error)
  | _ => none

/-- What it makes of the file behind a path, through links. -/
def Entry.content : Entry → Option (Except ValueError Text)
  | .text content | .link content => some (.ok content)
  | .undecodable error => some (.error error)
  | .ledger .. => none

/-! ### The controller -/

structure Config where
  agent_calls : Option Nat := none
  tokens : Option Nat := none
  prover_sessions : Option Nat := none
  orchestrator_sessions : Option Nat := none
  negation_sessions : Option Nat := none
deriving DecidableEq

structure Runtime where
  config : Config
  dag : Dag := {}
  documents : Dict String SourceDocument := .empty
  jobs : List Job := []
  reserved : Int := 0
  consumed : Int := 0
  resume_jobs : Dict String Nat := .empty
  resume_negation_jobs : Dict String Nat := .empty
  resume_role_jobs : Dict (Role × String) Nat := .empty
  scratch_before : Dict String Text := .empty
  files : Dict (String × JobFile) Entry := .empty
  /-- The jobs handed to a session by this process. -/
  sessions : List Nat := []
  /-- Those whose futures the scheduler still holds. -/
  pending : List Nat := []

/-- What the controller raises; every one of them is an `Exception`. -/
inductive Raised where
  | budget_exhausted (message code : String)
  | infrastructure (status : JobStatus)
  | runtime_error (message : String)
  | value_error (error : ValueError)
  | key_error (key : String)
  | os_error
deriving DecidableEq

abbrev Controller := Prog Runtime Raised

namespace Runtime

/-- Assign fields of a job object. -/
def updateJob (ref : Nat) (f : Job → Job) (rt : Runtime) : Runtime := { rt with jobs := rt.jobs.modify ref f }

end Runtime

/-! ### Role allowances -/

/-- Planning, review and research are charged to the orchestrator. -/
def role_group : Role → Role
  | .orchestrator | .review | .research => .orchestrator
  | role => role

def Config.limit (config : Config) : Role → Option Nat
  | .prover => config.prover_sessions
  | .negation => config.negation_sessions
  | _ => config.orchestrator_sessions

/-- What a role group has used, and what it still has reserved. -/
structure RoleSessions where
  used : Int
  reserved : Int
  limit : Option Nat

def session_metrics (jobs : List Job) (config : Config) (group : Role) : RoleSessions :=
  let own := jobs.filter (role_group ·.role = group)
  { used := (own.map fun job => (job.api_calls : Int)).sum
    reserved := ((own.filter Job.live).map fun job =>
      max 0 (job.reserved_calls - max 0 ((job.api_calls : Int) - job.previous_api_calls))).sum
    limit := config.limit group }

def has_capacity (rt : Runtime) (role : Role) : Bool :=
  let metrics := session_metrics rt.jobs rt.config (role_group role)
  metrics.limit.all fun (limit : Nat) => metrics.used + metrics.reserved < (limit : Int)

def require_capacity (role : Role) : Controller Unit := do
  let rt ← Prog.get
  let metrics := session_metrics rt.jobs rt.config (role_group role)
  match metrics.limit with
  | none => return
  | some limit =>
    if metrics.used + metrics.reserved ≥ limit then
      .raise (.budget_exhausted
        (s!"{(role_group role).name.capitalize} campaign session limit reached: " ++
          s!"{metrics.used} started, {metrics.reserved} reserved, limit {limit}.")
        ((role_group role).name ++ "_sessions"))
    else return

/-! ### The global reservation -/

/-- Cancellation, the deadline and the free-space reserve may stop any new work. -/
def ensure_active : Controller Unit := do
  Prog.fault (.infrastructure .interrupted)
  Prog.fault (.budget_exhausted "campaign wall-clock budget exhausted" "campaign_wall_time")

def check_storage : Controller Unit := Prog.fault (.infrastructure (.other "storage_pressure"))

/-- A finished invocation whose token usage is unknown. -/
def Job.unmetered (job : Job) : Bool := job.api_calls ≠ 0 && !job.usage_known && job.accounted

def reserve (requested : Int) : Controller Int := do
  ensure_active
  check_storage
  let rt ← Prog.get
  let remaining := rt.config.agent_calls.map fun (limit : Nat) => (limit : Int) - rt.consumed - rt.reserved
  if remaining.any (· ≤ 0) then
    .raise (.budget_exhausted "campaign agent-call budget exhausted" "campaign_api_calls")
  else if rt.config.tokens.isSome && rt.jobs.any Job.unmetered then
    .raise (.budget_exhausted
      ("Token usage is unavailable for a completed native invocation; no further token-capped calls " ++
        "can be admitted.") "campaign_tokens_unknown")
  else if rt.config.tokens.any (· ≤ (rt.jobs.map fun job => job.input_tokens + job.output_tokens).sum) then
    .raise (.budget_exhausted "campaign reported-token budget exhausted" "campaign_tokens")
  else
    let allocation := remaining.elim requested (min requested)
    Prog.modify fun rt => { rt with reserved := rt.reserved + allocation }
    return allocation

end LeanFlow.Jobs
