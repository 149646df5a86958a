import LeanFlow.Goals.Planned
import LeanFlow.Jobs.Runtime

/-! The recovery of obligations: what the controller keeps about it.

A blocked obligation has a journal, a state machine whose stages are written to the durable
state one by one. Other threads write the live state at any time, half changed as it may be;
a crash loses what was not written. Of a prompt only what a later process finds a job by is
kept; texts that are only shown (notes on findings, reports, phases) are left out. -/
namespace LeanFlow.Recovery
open General Goals Jobs

/-! ### Records -/

inductive Stage where
  | decide
  | negate
  | plan
  | done
  | budget_exhausted
  /-- What no version of the controller writes. -/
  | other (name : String)
deriving DecidableEq

/-- What the orchestrator chose. -/
structure Decision where
  action : String
  rationale : String := ""
  instructions : String := ""
  rejected_action : String := ""
  fallback : Bool := false
deriving DecidableEq

/-- The journal of one obligation, `recovery_in_flight[node_id]`. A screen that ran may have found a
counterexample, or none, or nothing. -/
structure Journal where
  stage : Stage := .decide
  charged : Bool := false
  decision : Option Decision := none
  decision_result : Option String := none
  reason : Option String := none
  affected : Option (List String) := none
  refinement : Bool := false
  plan_started : Bool := false
  applied : Bool := false
  screen : Option (Option Bool) := none
deriving DecidableEq

/-- An entry of `recovery_decisions`. -/
structure Record where
  node_id : String
  decision : Decision
  budget_used : Nat
  node_revision : Nat
deriving DecidableEq

/-- An entry of `prover_recovery_guidance`. -/
structure Guidance where
  node_revision : Nat
  action : String
  instructions : String
  rationale : String
  decision_index : Nat
deriving DecidableEq

/-- A prompt: its wording, and the text that is put in. No two wordings are alike. -/
inductive Purpose where
  | attempt
  | refutation
  | decision (report : String)
  | outline (reason : String)
  | proposal (request : String)
  | review (reason : String)
  | question (question : String)
deriving DecidableEq

/-- What a later process finds an interrupted job by: for a role without a node the role and the whole
prompt, else the node. -/
inductive JobKey where
  | prompt (role : Role) (purpose : Purpose)
  | node (role : Role) (node_id : String)
deriving DecidableEq

def job_key (role : Role) (purpose : Purpose) (node_id : String) : JobKey :=
  match role with
  | .orchestrator | .review | .research => .prompt role purpose
  | .prover | .negation => .node role node_id

/-- A job is its position in `jobs`; its budget is not this machine's. -/
structure Job where
  role : Role
  purpose : Purpose
  node_id : String := ""
  node_revision : Nat := 0
  status : JobStatus
  negation_assignment : Bool := false
  research_recorded : Bool := false
deriving DecidableEq

def Job.key (job : Job) : JobKey := job_key job.role job.purpose job.node_id

/-! ### Planning -/

/-- A key of `steps`: `outline`, `proposal-n` or `review-n`. -/
inductive PlanStep where
  | outline
  | proposal (attempt : Nat)
  | review (attempt : Nat)
deriving DecidableEq

structure Progress where
  next_attempt : Nat := 0
  previous_proposal : Fields := []
  critique : String := ""
  failure_counts : Dict String Nat := .empty
  stalled : Bool := false

structure Materialization where
  proposal : Fields
  changed_direction : Bool
  transaction_id : Option String := none

/-- The checkpoint of a planning request. -/
structure Checkpoint where
  reason : String
  affected : Option (List String)
  refinement : Bool
  previous_plan : Option String := none
  steps : Dict PlanStep Nat := .empty
  research_jobs : Dict Nat Nat := .empty
  owner : Option String := none
  design : Bool := false
  progress : Option Progress := none
  materialization : Option Materialization := none
  accepted_proposal : Option Fields := none
  refinement_charged : Bool := false

/-! ### The controller -/

/-- `runtime.state`, and what `state.json` has of it; `dag` is the graph of the last `_persist`. -/
structure State where
  dag : Dag
  jobs : List Job := []
  decompositions : Nat := 0
  plan_refinements : Nat := 0
  recovery_in_flight : Dict String Journal := .empty
  recovery_decisions : List Record := []
  prover_recovery_guidance : Dict String Guidance := .empty
  negation_proofs : Dict String String := .empty
  planning_request : Option Checkpoint := none
  plan_markdown : String := ""
  design_plan_complete : Bool := false
  source_transaction : Option String := none
  disproof : Option String := none

structure Config where
  max_decompositions : Option Nat := none
  plan_refinements : Option Nat := none
  max_nodes : Nat
  parallelism : Nat := 1

/-- The graphs are numbered: an accepted plan, and one that was rolled back, make new node objects, and
who holds a node of an older graph does not see the new one. -/
structure World where
  state : State
  graphs : Nat → Dag
  graph : Nat := 0
  disk : State
  /-- The `result.json` of the jobs. -/
  results : Dict Nat String := .empty
  /-- The `negation_checked` events: the node, and whether the check accepted. -/
  checked : List (String × Bool) := []
  stopping : Bool := false
  cancelled : Bool := false

inductive Raised where
  | budget_exhausted (code : String)
  | infrastructure (status : String)
  | value_error
  | runtime_error
  | os_error
  /-- The process is gone. -/
  | killed
deriving DecidableEq

abbrev Controller := Prog World Raised

/-- A node object: its graph and its id. -/
structure NodeRef where
  graph : Nat
  id : String
deriving DecidableEq

namespace World

/-- `runtime.dag`. -/
def dag (w : World) : Dag := w.graphs w.graph

/-- `runtime.dag.by_id()[id]`. -/
def ref (id : String) (w : World) : NodeRef := ⟨w.graph, id⟩

def node (n : NodeRef) (w : World) : Node := ((w.graphs n.graph).by_id n.id).getD { id := n.id, name := "", file := "" }

def updateNode (n : NodeRef) (f : Node → Node) (w : World) : World :=
  { w with graphs := Function.update w.graphs n.graph ((w.graphs n.graph).update n.id f) }

def updateDag (f : Dag → Dag) (w : World) : World := { w with graphs := Function.update w.graphs w.graph (f w.dag) }

/-- `runtime.dag = dag`: new objects. -/
def setDag (dag : Dag) (w : World) : World :=
  { w with graphs := Function.update w.graphs (w.graph + 1) dag, graph := w.graph + 1 }

def journal (id : String) (w : World) : Option Journal := w.state.recovery_in_flight.get? id

end World

/-! ### Changes of the live state -/

namespace State

/-- Assign fields of a journal. -/
def updateJournal (id : String) (f : Journal → Journal) (state : State) : State :=
  { state with recovery_in_flight := state.recovery_in_flight.mapValues fun key rec => if key = id then f rec else rec }

def updateJob (ref : Nat) (f : Job → Job) (state : State) : State := { state with jobs := state.jobs.modify ref f }

/-- Assign fields of the checkpoint. -/
def updateCheckpoint (f : Checkpoint → Checkpoint) (state : State) : State :=
  { state with planning_request := state.planning_request.map f }

end State

/-- A step that is taken only sometimes. -/
def when (c : Prop) [Decidable c] (x : Controller Unit) : Controller Unit := if c then x else return

/-- One assignment in `runtime.state`. -/
def assign (f : State → State) : Controller Unit := Prog.modify fun w => { w with state := f w.state }

def update_journal (id : String) (f : Journal → Journal) : Controller Unit := assign (State.updateJournal id f)

def update_checkpoint (f : Checkpoint → Checkpoint) : Controller Unit := assign (State.updateCheckpoint f)

def update_node (n : NodeRef) (f : Node → Node) : Controller Unit := Prog.modify (World.updateNode n f)

/-! ### The durable state -/

/-- The graph goes into the state. -/
def World.record (w : World) : World := { w with state := { w.state with dag := w.dag } }

/-- The live state goes to the file, with the graph that was recorded last. -/
def World.publish (w : World) : World := { w with disk := w.state }

/-- `_persist`. -/
def persist : Controller Unit := do
  Prog.fault .os_error
  Prog.modify World.record
  Prog.fault .os_error
  Prog.modify World.publish

/-- `_ensure_active`. -/
def ensure_active : Controller Unit := do
  let w ← Prog.get
  if w.cancelled then .raise (.infrastructure "interrupted")
  else Prog.fault (.budget_exhausted "campaign_wall_time")

/-! ### Journals -/

/-- The latest attempt at this revision, when it stalled. -/
def stalled_job (jobs : List Job) (node : Node) : Option Job :=
  (jobs.reverse.find? fun job => job.node_id = node.id ∧ job.node_revision = node.revision ∧
    (job.role = .prover ∨ job.role = .negation)).filter (·.status = .other "response_stalled")

/-- Open a journal, unless there is one. -/
def enqueue_recovery (n : NodeRef) : Controller Unit := do
  let w ← Prog.get
  if (w.journal n.id).isNone then
    update_node n fun node => { node with status := .blocked }
    assign fun state => { state with recovery_in_flight := state.recovery_in_flight.set n.id {} }
    let stalled := stalled_job w.state.jobs (w.node n)
    -- A cached proof is checked before another decision is bought.
    when (stalled.any (·.role = .negation) ∧ (w.state.negation_proofs.get? n.id).isSome) do
      update_journal n.id fun rec => { rec with stage := .negate, screen := some none }
    persist

/-- Close a journal. -/
def dismiss_recovery (id : String) : Controller Unit := do
  let w ← Prog.get
  assign fun state => { state with recovery_in_flight := state.recovery_in_flight.erase id }
  assign fun state => { state with negation_proofs := state.negation_proofs.erase id }
  if (w.journal id).isSome then persist

end LeanFlow.Recovery
