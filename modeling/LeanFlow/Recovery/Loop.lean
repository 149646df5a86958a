import LeanFlow.Recovery.Replan

/-! The recovery loop, and the controller's lives.

A recovery goes through its stages until the journal is closed. A life of the controller is what it does
between two starts; it ends anywhere, and the next one starts from what was written. -/
namespace LeanFlow.Recovery
open General Goals Jobs

variable (S : Setup)

/-- What happens in one round of the loop; the report is what the prompt of the decision tells. -/
structure Turn where
  report : String := ""
  decision : Session := {}
  refutation : Refutation := {}
  planning : Planning := {}

/-! ### The plan stage -/

/-- The request of this journal, before any planning; the checkpoint says whether planning is over. -/
def seed_plan (n : NodeRef) (rec : Journal) : Controller Unit :=
  if rec.plan_started then return
  else do
    let w ← Prog.get
    update_journal n.id fun rec => { rec with plan_started := true }
    seed_checkpoint fun state => {
      reason := rec.reason.getD ("Repair only the branch for " ++ (w.node n).name ++ ".")
      affected := some ((rec.affected.filter (· ≠ [])).getD (w.dag.affected n.id))
      refinement := rec.refinement
      previous_plan := some state.plan_markdown
      owner := some n.id }
    persist

/-- After a crash the outcome is in the journal. -/
def plan_outcome (n : NodeRef) (rec : Journal) (turn : Planning) : Controller Bool := do
  let w ← Prog.get
  if w.state.planning_request.isSome then
    research_plan S (rec.reason.getD ("Repair only the branch for " ++ (w.node n).name ++ "."))
      (some ((rec.affected.filter (· ≠ [])).getD (w.dag.affected n.id))) rec.refinement turn
  else return (w.journal n.id).any (·.applied)

/-- The obligations of an applied plan are open again. -/
def unblock (ids : List String) (status : NodeStatus) (dag : Dag) : Dag :=
  { dag with nodes := dag.nodes.map fun node =>
      if node.id ∈ ids ∧ node.status = .blocked then { node with status } else node }

def declined (n : NodeRef) : Controller Unit := do
  update_node n fun node => { node with notes := node.notes ++ "\nReplanning proposal was declined" }
  update_journal n.id fun rec => { rec with charged := false }
  update_journal n.id fun rec => { rec with decision := none }
  update_journal n.id fun rec => { rec with plan_started := false }
  update_journal n.id fun rec => { rec with applied := false }
  update_journal n.id fun rec => { rec with stage := .decide }
  persist

/-- The stage; a declined proposal goes back to the orchestrator. -/
def replan (n : NodeRef) (rec : Journal) (turn : Planning) : Controller Bool := do
  let w ← Prog.get
  let affected := (rec.affected.filter (· ≠ [])).getD (w.dag.affected n.id)
  seed_plan n rec
  let applied ← plan_outcome S n rec turn
  if applied then
    Prog.modify (World.updateDag (if rec.refinement then unblock affected .pending else unblock [n.id] .retry))
    dismiss_recovery n.id
    return false
  else
    declined n
    return true

/-! ### The loop -/

def reopen_budget (n : NodeRef) : Controller Unit := do
  update_journal n.id fun rec => { rec with stage := .decide, charged := false }
  persist

/-- One round; does the loop go on? -/
def recover_round (n : NodeRef) (turn : Turn) : Controller Bool := do
  let w ← Prog.get
  if w.stopping ∨ w.cancelled then return false
  else
    match w.journal n.id with
    | none => return false
    | some rec =>
      match rec.stage with
      | .budget_exhausted =>
        if exhausted S.config w.state then return false
        else do
          reopen_budget n
          return true
      | .done => do
        dismiss_recovery n.id
        return false
      | .decide => do
        let charged ← charge S.config n rec
        if charged then
          decide_recovery S.classes S.repr S.json_report n turn.report turn.decision
          return true
        else return false
      | .negate => do
        refute S.classes n turn.refutation
        return true
      | .plan => replan S n rec turn.planning
      | .other _ => .raise (.infrastructure "state_error")

def recover_rounds (n : NodeRef) : List Turn → Controller Unit
  | [] => .raise .killed
  | turn :: turns => do
    let more ← recover_round S n turn
    if more then recover_rounds n turns

/-- `_recover_loop`. -/
def recover_loop (n : NodeRef) (turns : List Turn) : Controller Unit := do
  enqueue_recovery n
  recover_rounds S n turns

/-- Exhausted roles wait while other sessions are out. -/
def recover_with_role_capacity (n : NodeRef) (pending : Bool) (turns : List Turn) : Controller Unit :=
  Prog.handle
    (fun e =>
      if pending ∧ e ∈ ["orchestrator_sessions", "prover_sessions", "negation_sessions"].map Raised.budget_exhausted then persist
      else .raise e)
    (recover_loop S n turns)

end LeanFlow.Recovery
