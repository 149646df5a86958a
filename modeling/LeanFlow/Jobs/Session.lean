import LeanFlow.Jobs.Carry

/-! Session events, settling a job, waiting for capacity, and what a resume makes of the jobs.

A session reports its cumulative calls while it runs (`session_event`, under the
progress lock only) and in its result. `finish_job` settles the reservation once:
under both locks reading and settling a job are one action. -/
namespace LeanFlow.Jobs
open General Goals Source

/-! ### Session events -/

/-- A counter of the job, with what this invocation adds to the earlier ones. -/
def merged (counter previous : Nat) (usage : Option Int) : Nat :=
  usage.elim counter fun usage => (max (counter : Int) (previous + usage)).toNat

def merge_usage (job : Job) (usage : Usage) : Job :=
  { job with
    input_tokens := merged job.input_tokens job.previous_input_tokens usage.input_tokens
    output_tokens := merged job.output_tokens job.previous_output_tokens usage.output_tokens }

structure Details where
  api_calls : Option Int := none
  usage : Usage := {}
deriving DecidableEq

/-- The calls a running session reports never leave its budget. -/
def Job.observe (details : Details) (job : Job) : Job :=
  if job.accounted then job
  else merge_usage { job with
    api_calls := details.api_calls.elim job.api_calls fun calls =>
      (max (job.api_calls : Int) (min job.api_budget calls)).toNat } details.usage

/-- `session_event`: what a started session reports. -/
def Runtime.event (event : Nat × Details) (rt : Runtime) : Option Runtime :=
  if event.1 ∈ rt.sessions then some (rt.updateJob event.1 (Job.observe event.2)) else none

/-! ### Settling -/

/-- What a session returns. -/
structure Result where
  status : JobStatus
  api_calls : Option Int := none
  usage : Usage := {}
  usage_known : Bool := false
deriving DecidableEq

def Result.calls (result : Result) (job : Job) : Int := max (job.api_calls : Int) (result.api_calls.getD 0)

/-- The job after its reservation is settled. -/
def Job.settled (result : Result) (job : Job) : Job :=
  { merge_usage { job with
      status := result.status
      api_calls := (result.calls job).toNat
      accounted := true } result.usage with
    usage_known := result.usage_known }

/-- The accounting of `finish_job`: nothing for a settled job or one over its budget. -/
def Runtime.settle (ref : Nat) (result : Result) (rt : Runtime) : Runtime :=
  match rt.jobs[ref]? with
  | none => rt
  | some job =>
    if job.accounted ∨ result.calls job > job.api_budget then rt
    else { rt.updateJob ref (Job.settled result) with
      reserved := rt.reserved - job.reserved_calls
      consumed := rt.consumed + (result.calls job - job.previous_api_calls) }

/-- Results that stop the controller, unless it was cancelled before. -/
def JobStatus.stops : JobStatus → Bool
  | .provider_error | .environment_error | .source_conflict | .error | .context_limit => true
  | _ => false

/-- The status under which the controller stops. -/
def JobStatus.reported : JobStatus → JobStatus
  | .environment_error => .environment_error
  | .source_conflict => .source_conflict
  | .context_limit => .context_limit
  | .error => .error
  | _ => .provider_error

/-- The node of a failed prover session may be tried again. -/
def Runtime.retryNode (job : Job) (rt : Runtime) : Runtime :=
  { rt with dag := rt.dag.update job.node_id fun node =>
      if job.role = .prover ∧ node.revision = job.node_revision ∧ node.status ≠ .proved then
        { node with status := .retry }
      else node }

def finish_job (ref : Nat) (result : Result) (cancelled : Bool) : Controller Unit :=
  Prog.act (Runtime.settle ref result) fun rt =>
    match rt.jobs[ref]? with
    | none => return
    | some job =>
      if job.accounted then return
      else if result.calls job > job.api_budget then
        .raise (.runtime_error "session exceeded its reserved API allocation")
      else do
        -- `result.json`, the event and the durable state follow the accounting.
        Prog.fault .os_error
        Prog.fault .os_error
        persist
        if result.status.stops ∧ ¬ cancelled then
          Prog.modify (Runtime.retryNode job)
          .raise (.infrastructure result.status.reported)
        else return

/-! ### Waiting for capacity -/

/-- The calls a request needs: a resumed job may still have several. -/
def Runtime.minimum (rt : Runtime) (role : Role) (node : Option Node) (prompt : String) : Int :=
  ((rt.resumed role node prompt).bind (rt.jobs[·]?)).elim 1 fun job => max 1 (job.api_budget - job.api_calls)

/-- The jobs whose futures the controller may wait for; none when the call may go on. -/
def outstanding (rt : Runtime) (minimum : Int) (role : Role) : Option (List Nat) :=
  let global_capacity := rt.config.agent_calls.all fun (limit : Nat) =>
    minimum ≤ (limit : Int) - rt.consumed - rt.reserved
  if global_capacity && has_capacity rt role then none
  else some (rt.pending.filter fun ref => (rt.jobs[ref]?).any fun job =>
    !job.accounted && (!global_capacity || role_group job.role == role_group role))

/-- The loop over rounds of completed futures. -/
def wait_rounds (minimum : Int) (role : Role) : List (List (Nat × Result × Bool)) → Controller Unit
  | [] => return
  | done :: rounds => do
    ensure_active
    let rt ← Prog.get
    match outstanding rt minimum role with
    | none => return
    | some waiting =>
      if waiting = [] then return
      else
        (done.filter (·.1 ∈ waiting)).forM fun future => finish_job future.1 future.2.1 future.2.2
        wait_rounds minimum role rounds

/-- Only the controller's own thread waits, outside its lock. -/
def wait_for_capacity (role : Role) (node : Option Node) (prompt : String)
    (rounds : List (List (Nat × Result × Bool))) : Controller Unit := do
  let rt ← Prog.get
  wait_rounds (rt.minimum role node prompt) role rounds

/-! ### Resuming a run -/

/-- A job whose session may not have ended. -/
def JobStatus.unfinished : JobStatus → Bool
  | .running | .queued | .provider_error | .environment_error | .error | .interrupted | .resume_pending
  | .context_limit => true
  | _ => false

/-- The calls of an unfinished job are what its ledger admitted, or its whole budget; its tokens
are the usage the ledger keeps, where it keeps one. -/
def Job.recount (ledger : Option Entry) (job : Job) : Job :=
  match ledger with
  | some (.ledger _ used usage) =>
    { job with
      api_calls := used.toNat
      input_tokens := usage.input_tokens.elim job.input_tokens Int.toNat
      output_tokens := usage.output_tokens.elim job.output_tokens Int.toNat }
  | _ => if job.status = .context_limit then job else { job with api_calls := job.api_budget.toNat }

/-- What a resume does with one job: the job and the journal it is put into. -/
def Runtime.restoreJob (ref : Nat) (job : Job) (rt : Runtime) : Runtime :=
  if job.status.unfinished then
    let job := job.recount (rt.files.get? (job.id, .request_count))
    let node := rt.dag.by_id job.node_id
    let put (job : Job) : Runtime := rt.updateJob ref fun _ => job
    if job.role = .prover ∧ node.any (·.status = .proved) then put { job with status := .interrupted }
    else if (job.role = .prover ∨ job.role = .negation) ∧ node.any (·.revision ≠ job.node_revision) then
      put { job with status := .stale }
    else if job.role = .prover then
      { put { job with status := .resume_pending } with resume_jobs := rt.resume_jobs.set job.node_id ref }
    else if job.role = .negation then
      if job.negation_assignment then
        { put { job with status := .resume_pending } with
          resume_negation_jobs := rt.resume_negation_jobs.set job.node_id ref }
      else put { job with status := .interrupted }
    else
      { put { job with status := .resume_pending } with
        resume_role_jobs := rt.resume_role_jobs.set (job.role, job.purpose) ref }
  else rt

/-- A saved submission takes priority over resuming its prover. -/
def Runtime.preferCandidate (rt : Runtime) (node : Node) : Runtime :=
  if node.status ≠ .proved ∧ node.candidate ≠ [] then
    match rt.resume_jobs.get? node.id with
    | none => rt
    | some ref => { rt.updateJob ref fun job => { job with status := .interrupted } with
        resume_jobs := rt.resume_jobs.erase node.id }
  else rt

/-- A new process reserves nothing and runs no session. -/
def Runtime.blank (durable : Runtime) : Runtime :=
  { durable with
    reserved := 0
    resume_jobs := .empty
    resume_negation_jobs := .empty
    resume_role_jobs := .empty
    scratch_before := .empty
    sessions := []
    pending := [] }

def Runtime.restoreJobs (durable : Runtime) : Runtime :=
  durable.jobs.zipIdx.foldl (fun rt entry => rt.restoreJob entry.2 entry.1) durable.blank

/-- Every durable call is consumed. -/
def Runtime.charged (rt : Runtime) : Runtime :=
  { rt with consumed := (rt.jobs.map fun job => (job.api_calls : Int)).sum }

/-- The jobs of a new process. -/
def Runtime.restore (durable : Runtime) : Runtime :=
  durable.dag.nodes.foldl Runtime.preferCandidate durable.restoreJobs.charged

end LeanFlow.Jobs
