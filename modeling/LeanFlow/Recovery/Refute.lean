import LeanFlow.Recovery.Decide
import LeanFlow.Source.Document

/-! The attempt to refute an obligation.

What the session proved is kept until the journal moves on: a nonempty proof is checked again after a
crash, an empty one says that a session ended without a usable proof. -/
namespace LeanFlow.Recovery
open General Goals Jobs Source

inductive Check where
  | accepted
  | rejected
  /-- The check could not complete. -/
  | incomplete
deriving DecidableEq

/-- What happens in one pass through the stage: is the statement supported, what the screen finds, the
session with the proof taken from it, and the check of a proof. -/
structure Refutation where
  supported : Bool := true
  screen : Option Bool := none
  session : Session := {}
  proof : String := ""
  check : Check := .accepted

/-- Turns that did not end normally, as far as a refutation is concerned. -/
def unfinished_refutation : JobStatus → Bool
  | .provider_error | .environment_error | .error | .source_conflict | .interrupted => true
  | _ => false

variable (C : CharClass)

def keep_proof (id proof : String) : Controller Unit :=
  assign fun state => { state with negation_proofs := state.negation_proofs.set id proof }

def drop_proof (id : String) : Controller Unit :=
  assign fun state => { state with negation_proofs := state.negation_proofs.erase id }

/-- Check one proof of the negation. -/
def certify_negation (n : NodeRef) (proof : String) (check : Check) : Controller Bool :=
  match validate_hole_replacement C proof.toList with
  | .error _ => do
    keep_proof n.id ""
    persist
    return false
  | .ok _ => do
    Prog.fault .os_error
    keep_proof n.id proof
    persist
    Prog.fault .runtime_error
    Prog.fault (.infrastructure "source_conflict")
    if check = .incomplete then
      ensure_active
      .raise (.infrastructure "environment_error")
    else
      Prog.fault .os_error
      Prog.modify fun w => { w with checked := w.checked ++ [(n.id, decide (check = .accepted))] }
      return decide (check = .accepted)

/-- Buy a proof of the negation from a session. -/
def prove_negation (n : NodeRef) (turn : Refutation) : Controller Bool := do
  let ref ← new_job .negation .refutation (some n) turn.session
  Prog.fault .os_error
  assign (State.updateJob ref fun job => { job with negation_assignment := true })
  persist
  invoke turn.session
  Prog.fault .value_error
  when (¬ unfinished_refutation turn.session.status) do keep_proof n.id turn.proof
  finish_job ref turn.session
  ensure_active
  Prog.fault (.infrastructure "source_conflict")
  if turn.proof = "" then return false
  else certify_negation C n turn.proof turn.check

/-- Certified evidence only, after the exact negation was checked. -/
def attempt_negation (n : NodeRef) (turn : Refutation) : Controller Bool := do
  let w ← Prog.get
  if ¬ turn.supported then return false
  else
    match w.state.negation_proofs.get? n.id with
    | some proof => if stripped C proof = "" then return false else certify_negation C n proof turn.check
    | none => prove_negation C n turn

/-- A session that was interrupted still has its work. -/
def State.resumes_negation (state : State) (id : String) : Bool :=
  state.jobs.any fun job => job.role = .negation ∧ job.node_id = id ∧ job.status = .resume_pending

/-- The obligations that rest on a refuted one are planned again. -/
def reopen (affected : List String) (refuted : String) (dag : Dag) : Dag :=
  { dag with nodes := dag.nodes.map fun node =>
      if node.id ∈ affected ∧ node.id ≠ refuted ∧ node.status ≠ .proved then
        { node with
          status := .pending
          revision := node.revision + 1
          conditional_dependencies := []
          notes := node.notes ++ "\nA planned prerequisite was refuted; retained candidate requires replanning." }
      else node }

def refutation_reason (node : Node) : String := "Repair only the branch for " ++ node.name ++ ". Prover report: " ++ node.notes

/-- A certified negation: of an original statement it ends the run, of a helper it asks for a plan. -/
def refuted (n : NodeRef) : Controller Unit := do
  let w ← Prog.get
  let affected := w.dag.affected n.id
  update_node n fun node => { node with status := .disproved }
  update_node n fun node => { node with notes := node.notes ++ "\nExact negation independently verified: " }
  if (w.node n).original then
    assign fun state => { state with disproof := some n.id }
    Prog.modify fun w => { w with stopping := true }
    Prog.modify fun w => { w with cancelled := true }
    dismiss_recovery n.id
  else
    Prog.modify (World.updateDag (reopen affected n.id))
    let w ← Prog.get
    update_journal n.id fun rec => { rec with reason := some (refutation_reason (w.node n)) }
    update_journal n.id fun rec => { rec with affected := some affected }
    update_journal n.id fun rec => { rec with refinement := true }
    update_journal n.id fun rec => { rec with plan_started := false }
    update_journal n.id fun rec => { rec with stage := .plan }
    drop_proof n.id
    persist

/-- Back to the orchestrator, which is charged again. -/
def unrefuted (n : NodeRef) : Controller Unit := do
  update_journal n.id fun rec => { rec with charged := false }
  update_journal n.id fun rec => { rec with decision := none }
  update_journal n.id fun rec => { rec with screen := none }
  update_journal n.id fun rec => { rec with stage := .decide }
  drop_proof n.id
  persist

/-- The stage. -/
def refute (n : NodeRef) (turn : Refutation) : Controller Unit := do
  let w ← Prog.get
  when ((w.journal n.id).all (·.screen = none) ∧ ¬ w.state.resumes_negation n.id) do
    update_journal n.id fun rec => { rec with screen := some turn.screen }
    persist
  let certified ← attempt_negation C n turn
  if certified then refuted n else unrefuted n

end LeanFlow.Recovery
