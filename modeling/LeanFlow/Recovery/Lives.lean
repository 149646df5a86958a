import LeanFlow.Recovery.Loop
import LeanFlow.Jobs.Resume

/-! The lives of a controller.

A life is what one process does: it starts from the durable state, works through its operations and is cut
off anywhere. Other threads record the graph, write the durable state and ask it to stop meanwhile. -/
namespace LeanFlow.Recovery
open General Goals Jobs

/-! ### The other threads -/

/-- A `_persist` of another thread records and then publishes; a progress report publishes only. -/
inductive Other where
  | record
  | publish
  | stop
deriving DecidableEq

def other : Other → World → Option World
  | .record, w => some w.record
  | .publish, w => some w.publish
  | .stop, w => some { w with stopping := true, cancelled := true }

/-! ### Operations -/

/-- What the rest of the controller does to graph, jobs and plan: it proves and accepts. -/
inductive Work where
  | graph (dag : Dag)
  | attempt (node_id : String)
  | settle (ref : Nat) (status : JobStatus)
  | transaction (id : Option String)
  | guidance (text : String)

/-- Only a refutation makes a node disproved, and sessions of another role are not settled here. -/
def World.work (w : World) : Work → World
  | .graph dag =>
    if dag.nodes.all fun node => node.status ≠ .disproved ∨ (w.dag.by_id node.id).any (·.status = .disproved) then w.setDag dag
    else w
  | .attempt node_id =>
    { w with state := { w.state with jobs := w.state.jobs ++
        [{ role := .prover, purpose := .attempt, node_id, node_revision := (w.node (w.ref node_id)).revision, status := .running }] } }
  | .settle ref status =>
    { w with state := w.state.updateJob ref fun job => if job.role = .prover then { job with status } else job }
  | .transaction id => { w with state := { w.state with source_transaction := id } }
  | .guidance text => { w with state := { w.state with plan_markdown := w.state.plan_markdown ++ "\n\n## User guidance\n\n" ++ text } }

inductive Operation where
  | recover (id : String) (pending : Bool) (turns : List Turn)
  | enqueue (id : String)
  | dismiss (id : String)
  | plan (reason : String) (design : Bool) (turn : Planning)
  | legacy (id : String)
  | work (work : Work)
  | persist

/-- A retired decision that left an obligation unfinished. -/
def retired (rec : Option Journal) (latest : Option Record) : Bool :=
  match rec with
  | some rec => rec.stage = .done ∧ rec.decision.any (·.action = "stop")
  | none => latest.any (·.decision.action = "stop")

/-- `restore_legacy_stops`, for one node. -/
def restore_legacy_stop (n : NodeRef) : Controller Unit := do
  let w ← Prog.get
  let node := w.node n
  let latest := w.state.recovery_decisions.reverse.find? fun record =>
    record.node_id = n.id ∧ record.node_revision = node.revision
  if node.status = .blocked ∧ node.candidate = [] ∧ retired (w.journal n.id) latest then
    if (w.journal n.id).isNone then enqueue_recovery n
    else
      update_journal n.id fun rec => { rec with stage := .decide, charged := false, decision := none }
      update_journal n.id fun rec => { rec with decision_result := none }
      persist

variable (S : Setup)

/-- The design of a fresh run, or a checkpoint that was left. -/
def plan_design (reason : String) (design : Bool) (turn : Planning) : Controller Unit := do
  when design do
    seed_checkpoint fun state => { reason, affected := none, refinement := false, previous_plan := some state.plan_markdown, design }
  let _ ← research_plan S reason none false turn
  when design do assign fun state => { state with design_plan_complete := true }

def perform : Operation → Controller Unit
  | .recover id pending turns => do
    let w ← Prog.get
    recover_with_role_capacity S (w.ref id) pending turns
  | .enqueue id => do
    let w ← Prog.get
    enqueue_recovery (w.ref id)
  | .dismiss id => dismiss_recovery id
  | .plan reason design turn => plan_design S reason design turn
  | .legacy id => do
    let w ← Prog.get
    restore_legacy_stop (w.ref id)
  | .work work => Prog.modify (·.work work)
  | .persist => persist

/-! ### Lives -/

/-- A life: its limits, what it does, and the moves of its run. -/
structure Life where
  config : Config
  operations : List Operation
  moves : List (Prog.Move Other)

def Life.program (life : Life) : Controller Unit := life.operations.forM (perform { S with config := life.config })

/-- What becomes of an unfinished job. -/
def Job.restarted (dag : Dag) (job : Job) : Job :=
  if job.status.unfinished then
    let node := dag.by_id job.node_id
    if job.role = .prover ∧ node.any (·.status = .proved) then { job with status := .interrupted }
    else if (job.role = .prover ∨ job.role = .negation) ∧ node.any (·.revision ≠ job.node_revision) then { job with status := .stale }
    else if job.role = .negation ∧ ¬ job.negation_assignment then { job with status := .interrupted }
    else { job with status := .resume_pending }
  else job

/-- `_restore`: what was written is all there is. -/
def World.resume (w : World) : World :=
  { w.setDag w.disk.dag with
    state := { w.disk with jobs := w.disk.jobs.map (Job.restarted w.disk.dag) }
    stopping := false
    cancelled := false }

/-- A fresh run. -/
def World.fresh (dag : Dag) : World := { state := { dag }, graphs := fun _ => dag, disk := { dag } }

/-- One life after the other, each but the last ended by its process. -/
def history (life : Life) : List Life → World → Option World
  | [], w => (Prog.drive other life.moves (life.program S, w)).map Prod.snd
  | next :: lives, w => (Prog.drive other life.moves (life.program S, w)).bind fun c => history next lives c.2.resume

/-! ### The jobs of the controller -/

/-- What recovery keeps of a job of the controller. -/
def Job.of (purpose : Purpose) (job : Jobs.Job) : Job where
  role := job.role
  purpose := purpose
  node_id := job.node_id
  node_revision := job.node_revision
  status := job.status
  negation_assignment := job.negation_assignment

/-- Settling a job changes its status, and what it counts. -/
theorem of_settled (purpose : Purpose) (result : Result) (job : Jobs.Job) :
    Job.of purpose (job.settled result) = { Job.of purpose job with status := result.status } := rfl

/-- A resume leaves of a job what `restarted` says, whatever its ledger counted. -/
theorem of_restoreJob (purpose : Purpose) {ref : Nat} {job : Jobs.Job} {rt : Runtime} (hjob : rt.jobs[ref]? = some job) :
    ((rt.restoreJob ref job).jobs[ref]?).map (Job.of purpose) = some ((Job.of purpose job).restarted rt.dag) := by
  have hput (job' : Jobs.Job) : ((rt.jobs.modify ref fun _ => job')[ref]?).map (Job.of purpose) = some (Job.of purpose job') := by
    rw [List.getElem?_modify_eq, hjob]
    rfl
  obtain ⟨calls, input, output, hcounted⟩ := recount_eq (rt.files.get? (job.id, .request_count)) job
  unfold Runtime.restoreJob Job.restarted
  by_cases hunfinished : job.status.unfinished = true
  · rw [if_pos hunfinished, if_pos (show (Job.of purpose job).status.unfinished = true from hunfinished), hcounted]
    show _ = some (if job.role = .prover ∧ (rt.dag.by_id job.node_id).any (·.status = .proved) then _ else _)
    dsimp only
    by_cases hproved : job.role = .prover ∧ (rt.dag.by_id job.node_id).any (·.status = .proved) = true
    · rw [if_pos hproved, if_pos hproved]
      exact hput _
    rw [if_neg hproved, if_neg hproved]
    by_cases hstale : (job.role = .prover ∨ job.role = .negation) ∧ (rt.dag.by_id job.node_id).any (·.revision ≠ job.node_revision) = true
    · rw [if_pos hstale]
      exact (hput _).trans (congrArg some (if_pos hstale).symm)
    rw [if_neg hstale]
    refine Eq.trans ?_ (congrArg some (if_neg hstale).symm)
    cases hrole : job.role <;> cases hassigned : job.negation_assignment
    all_goals exact (hput _).trans (by simp [Job.of, hrole, hassigned])
  · rw [if_neg hunfinished, if_neg (show ¬(Job.of purpose job).status.unfinished = true from hunfinished), hjob]
    rfl

end LeanFlow.Recovery
