import LeanFlow.Recovery.State
import LeanFlow.Jobs.Session
import LeanFlow.Source.Declarations

/-! Sessions, and the decision of the orchestrator. -/
namespace LeanFlow.Recovery
open General Goals Jobs Source

/-! ### One session -/

/-- What becomes of one job: it may be refused, take up an interrupted job, or fail. -/
structure Session where
  opens : Except Raised (Option Nat) := .ok none
  invokes : Option Raised := none
  status : JobStatus := .completed
  reply : String := ""

/-- An interrupted job is taken up again by its key. Several may wait under one key, of which `_restore` keeps
the last: which one it is, if any, is left open. -/
def State.resumable (state : State) (key : JobKey) (ref : Nat) : Bool :=
  (state.jobs[ref]?).any fun job => job.status = .resume_pending ∧ job.key = key

def State.open_job (role : Role) (purpose : Purpose) (node_id : String) (revision : Nat) (resumed : Option Nat) (state : State) : State :=
  match resumed.filter (state.resumable (job_key role purpose node_id)) with
  | some ref => state.updateJob ref fun job => { job with status := .running }
  | none => { state with jobs := state.jobs ++ [{ role, purpose, node_id, node_revision := revision, status := .running }] }

/-- `_new_job`: under the runtime lock, an interrupted job with this key, or a new one. -/
def new_job (role : Role) (purpose : Purpose) (node : Option NodeRef) (session : Session) : Controller Nat :=
  match session.opens with
  | .error e => .raise e
  | .ok resumed =>
    let node_id := node.elim "" NodeRef.id
    Prog.act
      (fun w => { w with state := w.state.open_job role purpose node_id (node.elim 0 fun n => (w.node n).revision) resumed })
      fun w => do
        persist
        return (resumed.filter (w.state.resumable (job_key role purpose node_id))).getD w.state.jobs.length

/-- `_invoke`: the session runs; what it does to other records is not this thread's. -/
def invoke (session : Session) : Controller Unit :=
  match session.invokes with
  | some e => .raise e
  | none => return

def finish_job (ref : Nat) (session : Session) : Controller Unit := do
  Prog.fault .runtime_error
  assign (State.updateJob ref fun job => { job with status := session.status })
  when (session.status = .interrupted) do
    Prog.modify fun w => { w with cancelled := true, stopping := true }
  Prog.fault .os_error
  Prog.modify fun w => { w with results := w.results.set ref session.reply }
  Prog.fault .os_error
  persist
  let w ← Prog.get
  if session.status.stops ∧ ¬ w.cancelled then
    when (session.status = .context_limit) do
      Prog.modify fun w => { w with cancelled := true }
    .raise (.infrastructure "session")

/-! ### The decision -/

section Decision

variable (C : CharClass) (repr : Json → String) (json_report : String → Fields)

def ACTIONS : List String := ["retry", "continue", "negate", "decompose"]

def invalid_rationale : String :=
  "No usable recovery decision: choose retry, continue, negate, or decompose. Stop is not permitted for an unfinished obligation. Continue requires nonempty instructions of at most 12000 characters."

def refuted_rationale : String :=
  "This generated helper has a certified negation. Choose decompose to replace it and repair its affected parent obligations; do not retry or negate the refuted helper."

def stripped (text : String) : String := String.ofList (strip C text.toList)

/-- Read the orchestrator's decision, falling back rather than guessing. -/
def parse_decision (text : String) : Decision :=
  let report := json_report text
  let action := (stripped C (str_field repr report "action" "")).toLower
  let rationale := stripped C (str_field repr report "rationale" "")
  let instructions := (report.get? "instructions").getD (.str "")
  match instructions.text.filter fun value => value.length ≤ 12000 with
  | some value =>
    if action ∈ ACTIONS ∧ (action ≠ "continue" ∨ stripped C value ≠ "") then { action, rationale, instructions := stripped C value }
    else { action := "invalid", rationale := invalid_rationale, rejected_action := action, fallback := true }
  | none => { action := "invalid", rationale := invalid_rationale, rejected_action := action, fallback := true }

/-- Turns that did not end normally: their jobs are resumed. -/
def infrastructure_failure : JobStatus → Bool
  | .provider_error | .environment_error | .error | .source_conflict | .interrupted | .context_limit => true
  | _ => false

/-- One turn of the orchestrator. The reply is in the journal before the job is finished, so that both are
written together and a crash replays it. -/
def recovery_decision (n : NodeRef) (report : String) (session : Session) : Controller Decision := do
  let w ← Prog.get
  match (w.journal n.id).bind (·.decision_result) with
  | some reply => return parse_decision C repr json_report reply
  | none =>
    let ref ← new_job .orchestrator (.decision report) (some n) session
    invoke session
    when (¬ infrastructure_failure session.status) do
      update_journal n.id fun rec => { rec with decision_result := some session.reply }
    finish_job ref session
    ensure_active
    return parse_decision C repr json_report session.reply

/-! ### The stage -/

/-- Instructions for the next attempt replace the ones before. -/
def record_recovery_guidance (n : NodeRef) (revision : Nat) (decision : Decision) : Controller Unit :=
  assign fun state =>
    { state with prover_recovery_guidance :=
        if decision.action ∈ ["retry", "continue", "negate"] then
          state.prover_recovery_guidance.set n.id {
            node_revision := revision
            action := decision.action
            instructions := decision.instructions
            rationale := decision.rationale
            decision_index := state.recovery_decisions.length - 1 }
        else state.prover_recovery_guidance.erase n.id }

variable (config : Config)

/-- The campaign's recovery budget is used up. -/
def exhausted (state : State) : Bool := config.max_decompositions.any (· ≤ state.decompositions)

/-- Charge one unit, once; nothing is asked when there is none left. -/
def charge (n : NodeRef) (rec : Journal) : Controller Bool :=
  if rec.charged then return true
  else do
    let w ← Prog.get
    if exhausted config w.state then
      update_node n fun node => { node with notes := node.notes ++ "\nCampaign recovery budget exhausted" }
      update_journal n.id fun rec => { rec with stage := .budget_exhausted }
      persist
      return false
    else
      assign fun state => { state with decompositions := state.decompositions + 1 }
      update_node n fun node => { node with decompositions := node.decompositions + 1 }
      update_journal n.id fun rec => { rec with charged := true }
      persist
      return true

/-- A refuted helper can only be replaced. -/
def admissible (status : NodeStatus) (decision : Decision) : Decision :=
  if status = .disproved ∧ decision.action ≠ "decompose" then
    { action := "invalid", rejected_action := decision.action, fallback := true, rationale := refuted_rationale }
  else decision

def replan_reason (node : Node) (decision : Decision) : String :=
  "Repair only the branch for " ++ node.name ++ ".\nRecovery decision: decompose -- " ++ decision.rationale ++
    "\nOrchestrator instructions: " ++ decision.instructions

/-- Where the decision leads, one assignment after the other. -/
def advance (n : NodeRef) (decision : Decision) : Controller Unit :=
  if decision.action = "retry" ∨ decision.action = "continue" then do
    update_node n fun node => { node with status := .retry }
    update_journal n.id fun rec => { rec with stage := .done }
  else if decision.action ∉ ACTIONS then do
    update_journal n.id fun rec => { rec with charged := false }
    update_journal n.id fun rec => { rec with decision := none }
    update_journal n.id fun rec => { rec with stage := .decide }
  else if decision.action = "negate" then
    update_journal n.id fun rec => { rec with stage := .negate }
  else do
    let w ← Prog.get
    update_journal n.id fun rec => { rec with stage := .plan }
    update_journal n.id fun rec => { rec with refinement := (w.node n).status = .disproved }
    update_journal n.id fun rec => { rec with affected := some (w.dag.affected n.id) }
    update_journal n.id fun rec => { rec with reason := some (replan_reason (w.node n) decision) }

/-- Ask, record the answer, and go on. -/
def decide_recovery (n : NodeRef) (report : String) (session : Session) : Controller Unit := do
  let answer ← recovery_decision C repr json_report n report session
  let w ← Prog.get
  let node := w.node n
  let decision := admissible node.status answer
  assign fun state =>
    { state with recovery_decisions := state.recovery_decisions ++
        [{ node_id := n.id, decision, budget_used := state.decompositions, node_revision := node.revision }] }
  update_node n fun node => { node with notes := node.notes ++ "\nRecovery decision: " ++ decision.action }
  update_journal n.id fun rec => { rec with decision := some decision }
  update_journal n.id fun rec => { rec with decision_result := none }
  record_recovery_guidance n node.revision decision
  advance n decision
  persist

end Decision

end LeanFlow.Recovery
