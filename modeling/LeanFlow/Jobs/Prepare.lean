import LeanFlow.Jobs.Runtime

/-! Preparing a job: a resumed session, or a fresh one in a new workspace.

`prepare_job` runs under the controller's lock, so only session events of running
jobs fall between its steps. Calls that leave the controller (files, the durable
state, the context of a session) may fail; what they raise is undone here and in
`new_job`. -/
namespace LeanFlow.Jobs
open General Goals Source

/-- What a session is told about its assignment. -/
structure Context where
  job_id : String
  scratch_holes : List Nat := []
  scratch_declaration : Text := []
  previous_job : Option String := none
deriving DecidableEq

section Prepare

-- `region` finds a declaration in a scratch text; its reader treats what it cannot read as empty.
variable (C : CharClass) (region : Text → String → Text)

/-! ### Calls that leave the controller -/

/-- `_context` collects what the session is told. -/
def collect_context : Controller Unit := Prog.fault (.runtime_error "context")

/-- `_persist` writes the durable state. -/
def persist : Controller Unit := Prog.fault .os_error

def write_source (path : String × JobFile) (text : Text) : Controller Unit := do
  Prog.fault .os_error
  Prog.modify fun rt => { rt with files := rt.files.set path (.text text) }

def checked {α : Type} (result : Except ValueError α) : Controller α :=
  Prog.ofExcept (result.mapError .value_error)

def scratch_declaration (rt : Runtime) (id : String) (node : Node) : Text :=
  (((rt.files.get? (id, .scratch)).bind Entry.content).bind Except.toOption).elim [] fun text =>
    (region text node.name).take 16000

/-! ### Resumed jobs -/

/-- The journal of interrupted jobs a role resumes from. -/
def Runtime.resumed_jobs (rt : Runtime) (role : Role) : Dict String Nat :=
  if role = .negation then rt.resume_negation_jobs else rt.resume_jobs

/-- The interrupted job that a call resumes. -/
def Runtime.resumed (rt : Runtime) (role : Role) (node : Option Node) (prompt : String) : Option Nat :=
  if role_group role = .orchestrator then rt.resume_role_jobs.get? (role, prompt)
  else (rt.resumed_jobs role).get? (node.elim "" (·.id))

/-- Put a job back under its key, or take it out. -/
def Runtime.putResumed (role : Role) (node : Option Node) (prompt : String)
    (change : {κ : Type} → [DecidableEq κ] → κ → Dict κ Nat → Dict κ Nat) (rt : Runtime) : Runtime :=
  if role_group role = .orchestrator then
    { rt with resume_role_jobs := change (role, prompt) rt.resume_role_jobs }
  else if role = .negation then
    { rt with resume_negation_jobs := change (node.elim "" (·.id)) rt.resume_negation_jobs }
  else { rt with resume_jobs := change (node.elim "" (·.id)) rt.resume_jobs }

/-- The counters of a session that starts again. -/
def Job.restarted (job : Job) : Job :=
  { job with
    previous_api_calls := job.api_calls
    previous_input_tokens := job.input_tokens
    previous_output_tokens := job.output_tokens
    resumed := true
    status := .running
    accounted := false }

/-- One more call for an interrupted job. -/
def Job.extended (job : Job) : Job := { job with api_budget := job.api_calls + 1 }

/-- Reserve that call, or give back what the campaign could still reserve. -/
def reserve_call (ref : Nat) : Controller Int := do
  let allocation ← reserve 1
  Prog.modify (Runtime.updateJob ref fun job => { job with reserved_calls := allocation })
  if allocation ≠ 1 then
    Prog.modify fun rt => { rt with reserved := rt.reserved - allocation }
    .raise (.budget_exhausted "remaining campaign allocation cannot resume this job" "campaign_api_calls")
  else return allocation

def resume_role_job (ref : Nat) (role : Role) (prompt : String) : Controller (Nat × Context) := do
  Prog.modify (Runtime.updateJob ref Job.extended)
  let _ ← reserve_call ref
  Prog.modify (Runtime.updateJob ref Job.restarted)
  collect_context
  let rt ← Prog.get
  Prog.modify (Runtime.putResumed role none prompt fun key jobs => jobs.erase key)
  persist
  return (ref, { job_id := rt.jobs[ref]?.elim "" (·.id) })

def resume_node_job (ref : Nat) (role : Role) (node : Node) : Controller (Nat × Context) := do
  Prog.modify (Runtime.updateJob ref Job.extended)
  ensure_active
  let allocation ← reserve_call ref
  Prog.modify (Runtime.updateJob ref Job.restarted)
  let rt ← Prog.get
  let id := rt.jobs[ref]?.elim "" (·.id)
  match (rt.files.get? (id, .source_before)).bind Entry.content with
  | none =>
    Prog.modify fun rt => { rt with reserved := rt.reserved - allocation }
    Prog.modify (Runtime.updateJob ref fun job => { job with status := .interrupted })
    .raise (.runtime_error "resumed scratch baseline is missing; preserved job cannot be safely resumed")
  | some before =>
    Prog.fault .os_error
    let before ← checked before
    Prog.modify fun rt => { rt with scratch_before := rt.scratch_before.set id before }
    collect_context
    let rt ← Prog.get
    Prog.modify (Runtime.putResumed role (some node) "" fun key jobs => jobs.erase key)
    persist
    return (ref, {
      job_id := id
      scratch_holes := rt.jobs[ref]?.elim [] (·.scratch_holes)
      scratch_declaration := scratch_declaration region rt id node })

/-! ### Fresh jobs -/

/-- `f"{role}_{n:05d}"`. -/
def job_name (role : Role) (n : Nat) : String :=
  role.name ++ "_" ++ "".pushn '0' (5 - (toString n).length) ++ toString n

/-- The latest prover job of the same node and revision. -/
def previous_job (jobs : List Job) (node : Node) : Option Job :=
  jobs.reverse.find? fun job =>
    job.node_id == node.id && job.role == .prover && job.node_revision == node.revision

/-- The prior work of a job: its immutable baseline and its scratch, when both are files
and the scratch is not a link. -/
def prior_work (rt : Runtime) (previous : Job) : Option (Except ValueError (Text × Text)) :=
  ((rt.files.get? (previous.id, .source_before)).bind Entry.content).bind fun before =>
    ((rt.files.get? (previous.id, .scratch)).bind Entry.regular).map fun after => do
      let before ← before
      let after ← after
      return (before, after)

/-- Retain the partial proofs of an earlier job. -/
def carry_proofs (id : String) (document : SourceDocument) (node : Node) (previous : Job) :
    Controller Unit := do
  let rt ← Prog.get
  match prior_work rt previous with
  | none => return
  | some work =>
    Prog.fault .os_error
    let work ← checked work
    match ← checked (extract_scratch_replacements C work.1 work.2 previous.scratch_holes) with
    | none => return
    | some proofs =>
      if proofs ≠ [] ∧ proofs.length = node.holes.length then
        let source ← checked (declaration_source C document node (some proofs))
        write_source (id, .scratch) source
      else return

/-- Retain the plan of an earlier job. -/
def copy_plan (id : String) (previous : Job) : Controller Unit := do
  let rt ← Prog.get
  match (rt.files.get? (previous.id, .plan)).bind Entry.regular with
  | none => return
  | some plan =>
    Prog.fault .os_error
    let plan ← checked plan
    write_source (id, .plan) plan

def carry_work (id : String) (document : SourceDocument) (node : Node) (previous : Option Job) :
    Controller Unit :=
  match previous with
  | none => return
  | some previous => do
    carry_proofs C id document node previous
    copy_plan id previous

/-- The position of each of the node's holes among the open ones; `list.index` raises
when a hole is not open. -/
def scratch_positions (opened : List Nat) (node : Node) : Except ValueError (List Nat) :=
  node.holes.mapM fun hole =>
    if hole ∈ opened then .ok (opened.idxOf hole) else .error ⟨s!"{hole} is not in list"⟩

/-- Render the scratch of a node's job and say what the session works on. -/
def fill_workspace (id : String) (node : Node) : Controller Context := do
  let rt ← Prog.get
  match rt.documents.get? node.file with
  | none => .raise (.key_error node.file)
  | some document =>
    let before ← checked (declaration_source C document node none)
    write_source (id, .scratch) before
    Prog.modify fun rt => { rt with scratch_before := rt.scratch_before.set id before }
    write_source (id, .source_before) before
    let spans ← checked (sorry_spans C document.baseline)
    let positions ← checked (scratch_positions (open_holes document.replacements spans) node)
    let rt ← Prog.get
    let previous := previous_job rt.jobs node
    carry_work C id document node previous
    let rt ← Prog.get
    return {
      job_id := id
      scratch_holes := positions
      scratch_declaration := scratch_declaration region rt id node
      previous_job := previous.map (·.id) }

/-- Only a job of a node has a scratch. -/
def assign_workspace (id : String) (node : Option Node) : Controller Context :=
  match node with
  | none => return { job_id := id }
  | some node => fill_workspace C region id node

/-- Everything a fresh job needs before it is published. -/
def build_job (id : String) (role : Role) (node : Option Node) (prompt : String) (budget : Int) :
    Controller (Job × Context) := do
  collect_context
  let context ← assign_workspace C region id node
  Prog.fault .os_error
  Prog.modify fun rt => { rt with files := rt.files.set (id, .request_count) (.ledger (some budget) 0 {}) }
  return ({
    id := id
    node_id := node.elim "" (·.id)
    role := role
    status := .running
    api_calls := 0
    api_budget := budget
    reserved_calls := budget
    previous_api_calls := 0
    purpose := prompt
    node_revision := node.elim 0 (·.revision)
    scratch_holes := context.scratch_holes }, context)

/-- The files of a workspace that is removed again. -/
def Runtime.removeWorkspace (id : String) (rt : Runtime) : Runtime :=
  { rt with
    scratch_before := rt.scratch_before.erase id
    files := [JobFile.scratch, .source_before, .plan, .request_count].foldl
      (fun files file => files.erase (id, file)) rt.files }

def fresh_job (role : Role) (node : Option Node) (prompt : String) : Controller (Nat × Context) := do
  let budget ← reserve 1
  let rt ← Prog.get
  let id := job_name role (rt.jobs.length + 1)
  let release (e : Raised) : Controller Unit := do
    Prog.modify fun rt => { rt with reserved := rt.reserved - budget }
    Prog.raise e
  -- The workspace may exist already or the disk may refuse it.
  Prog.handle release (Prog.fault .os_error)
  let (job, context) ← Prog.handle (fun e => do
    Prog.modify fun rt => { rt with reserved := rt.reserved - budget }
    Prog.modify (Runtime.removeWorkspace id)
    Prog.fault .os_error
    .raise e) (build_job C region id role node prompt budget)
  let rt ← Prog.get
  Prog.modify fun rt => { rt with jobs := rt.jobs ++ [job] }
  persist
  return (rt.jobs.length, context)

/-! ### Admission -/

def prepare_job (role : Role) (node : Option Node) (prompt : String) : Controller (Nat × Context) := do
  require_capacity role
  let rt ← Prog.get
  match rt.resumed role node prompt, node with
  | some ref, some node =>
    if role_group role = .orchestrator then resume_role_job ref role prompt
    else resume_node_job region ref role node
  | some ref, none =>
    if role_group role = .orchestrator then resume_role_job ref role prompt
    else fresh_job C region role none prompt
  | none, node => fresh_job C region role node prompt

def new_job (role : Role) (node : Option Node) (prompt : String) : Controller (Nat × Context) := do
  let rt ← Prog.get
  let resumed := rt.resumed role node prompt
  let previous := resumed.bind (rt.jobs[·]?)
  let reserved_before := rt.reserved
  Prog.handle (fun e => do
    match resumed, previous with
    | some ref, some previous =>
      Prog.modify fun rt => { rt with reserved := reserved_before }
      Prog.modify (Runtime.updateJob ref fun _ => previous)
      Prog.modify (Runtime.putResumed role node prompt fun key jobs => jobs.set key ref)
    | _, _ => pure ()
    .raise e) (do
      let prepared ← prepare_job C region role node prompt
      -- `context_allowances` reads the journal once more.
      Prog.fault (.runtime_error "role sessions")
      Prog.modify fun rt => { rt with sessions := rt.sessions ++ [prepared.1] }
      return prepared)

end Prepare

end LeanFlow.Jobs
