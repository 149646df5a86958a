import LeanFlow.Recovery.Refute

/-! Planning a branch again.

A planning request is a checkpoint: its steps name the jobs whose reports are replayed, its progress the
drafts that were rejected, its materialization the transaction that commits an accepted draft. What the
transaction does to the sources is not told here, only how it ends. -/
namespace LeanFlow.Recovery
open General Goals Jobs Source

/-! ### What happens -/

/-- How the materialization of an accepted draft ends: rejected or failed, before its transaction began or rolled
back, or committed. -/
inductive Outcome where
  | rejected (begun : Option String) (error : String)
  | failed (begun : Option String) (e : Raised)
  | committed (transaction_id : String)

/-- One attempt. -/
structure Draft where
  proposal : Session := {}
  review : Session := {}
  outcome : Outcome := .committed ""

/-- One call of the planner: the sessions of the questions, the order in which they end, and which still end
when the rest is abandoned. -/
structure Planning where
  outline : Session := {}
  drafts : List Draft := []
  questions : List Session := []
  order : List Nat := []
  abandoned : List Nat := []

/-- What planning depends on and does not change. -/
structure Setup where
  classes : CharClass
  repr : Json → String
  dumps : Json → String
  json_report : String → Fields
  /-- The digest of a rejection: stage, proposal, critique. -/
  fingerprint : String → Option Fields → String → String
  config : Config

variable (S : Setup)

/-! ### One step -/

/-- Jobs that did not finish cleanly; their steps run again. -/
def unclean : JobStatus → Bool
  | .running | .resume_pending | .provider_error | .environment_error | .error | .interrupted | .source_conflict
  | .context_limit => true
  | _ => false

/-- The report of a finished step. -/
def World.replay (step : PlanStep) (w : World) : Option String := do
  let ref ← (← w.state.planning_request).steps.get? step
  let job ← w.state.jobs[ref]?
  if unclean job.status then none else w.results.get? ref

/-- Replay a finished report, or continue the allocation. -/
def planning_call (step : PlanStep) (role : Role) (prompt : Purpose) (session : Session) : Controller String := do
  ensure_active
  let w ← Prog.get
  match w.replay step with
  | some reply => return reply
  | none =>
    let ref ← new_job role prompt none session
    update_checkpoint fun checkpoint => { checkpoint with steps := checkpoint.steps.set step ref }
    persist
    invoke session
    finish_job ref session
    ensure_active
    return session.reply

/-! ### Rejections -/

def REPEATED_FAILURE_LIMIT : Nat := 3

def update_progress (f : Progress → Progress) : Controller Unit :=
  update_checkpoint fun checkpoint => { checkpoint with progress := checkpoint.progress.map f }

def World.progress (w : World) : Progress := (w.state.planning_request.bind (·.progress)).getD {}

/-- A plan that failed repeatedly waits for a correction. -/
def ensure_not_stalled : Controller Unit := do
  let w ← Prog.get
  if w.progress.stalled then
    persist
    .raise (.infrastructure "planning_stalled")

/-- Count a rejection once, and stop when an unchanged failure repeats. -/
def reject_attempt (attempt : Nat) (proposal : Fields) (stage critique : String) (malformed : Bool) : Controller Unit := do
  update_checkpoint fun checkpoint => { checkpoint with progress := some (checkpoint.progress.getD {}) }
  let w ← Prog.get
  when (w.progress.next_attempt ≤ attempt) do
    let key := S.fingerprint stage (if malformed then none else some proposal) (if malformed then "malformed report" else critique)
    let repeats := (w.progress.failure_counts.get? key).getD 0 + 1
    update_progress fun progress => { progress with failure_counts := progress.failure_counts.set key repeats }
    update_progress fun progress => { progress with next_attempt := attempt + 1, previous_proposal := proposal, critique }
    update_checkpoint fun checkpoint => { checkpoint with materialization := none }
    when (REPEATED_FAILURE_LIMIT ≤ repeats) do
      update_progress fun progress => { progress with stalled := true }
    persist
  ensure_not_stalled

/-! ### Acceptance -/

def begin_materialization (transaction_id : String) : Controller Unit :=
  update_checkpoint fun checkpoint => { checkpoint with
    materialization := checkpoint.materialization.map fun m => { m with transaction_id := some transaction_id } }

/-- What was begun is rolled back: the old graph comes back, as new objects. -/
def roll_back : Option String → Controller Unit
  | none => return
  | some transaction_id => do
    begin_materialization transaction_id
    Prog.modify fun w => w.setDag w.dag

/-- Graph and transaction are committed together. What rejected the draft is the result. -/
def materialize (updated : Dag) : Outcome → Controller (Option String)
  | .rejected begun error => do
    roll_back begun
    return some error
  | .failed begun e => do
    roll_back begun
    .raise e
  | .committed transaction_id => do
    begin_materialization transaction_id
    Prog.modify (World.setDag updated)
    assign fun state => { state with source_transaction := some transaction_id }
    persist
    return none

def plan_text (report : Fields) : Option String :=
  ((report.get? "plan").bind Json.text).filter fun plan => stripped S.classes plan ≠ ""

/-- The acceptance, once graph and sources have been committed. -/
def accept_materialized_plan : Controller Unit := do
  let w ← Prog.get
  match w.state.planning_request.bind (·.materialization) with
  | none => return
  | some materialization =>
    when (materialization.changed_direction ∧ w.state.planning_request.all fun checkpoint => ¬ checkpoint.refinement_charged) do
      assign fun state => { state with plan_refinements := state.plan_refinements + 1 }
      update_checkpoint fun checkpoint => { checkpoint with refinement_charged := true }
    assign fun state => { state with plan_markdown := (plan_text S materialization.proposal).getD "" }
    update_checkpoint fun checkpoint => { checkpoint with accepted_proposal := some materialization.proposal }
    update_checkpoint fun checkpoint => { checkpoint with materialization := none }
    persist

/-- The outcome goes into the owner's journal before the checkpoint is dropped. -/
def finalize_plan_checkpoint (applied : Bool) : Controller Unit := do
  let w ← Prog.get
  match w.state.planning_request with
  | none => return
  | some checkpoint =>
    checkpoint.owner.forM fun owner => update_journal owner fun rec => { rec with applied }
    when checkpoint.design do assign fun state => { state with design_plan_complete := true }

def drop_checkpoint : Controller Unit := assign fun state => { state with planning_request := none }

/-! ### Questions -/

/-- A question that was answered before a crash keeps its answer. -/
def World.answer (index : Nat) (w : World) : Option (Nat × Option String) := do
  let ref ← (← w.state.planning_request).research_jobs.get? index
  let job ← w.state.jobs[ref]?
  match job.status with
  | .running | .queued | .resume_pending | .provider_error | .environment_error | .error => none
  | _ => return (ref, ← w.results.get? ref)

def World.recorded (index : Nat) (w : World) : Bool :=
  (((w.state.planning_request.bind (·.research_jobs.get? index)).bind (w.state.jobs[·]?)).map (·.research_recorded)).getD false

/-- Open the job of a question. -/
def open_question (index : Nat) (question : String) (session : Session) : Controller (Option (Nat × Option Session)) := do
  ensure_active
  let w ← Prog.get
  if w.recorded index then return none
  else
    match w.answer index with
    | some (ref, _) => return some (ref, none)
    | none =>
      let ref ← new_job .research (.question question) none session
      update_checkpoint fun checkpoint => { checkpoint with research_jobs := checkpoint.research_jobs.set index ref }
      persist
      return some (ref, some session)

/-- Record an answer. -/
def close_question (question : Nat × Option Session) : Controller Unit := do
  ensure_active
  question.2.forM fun session => do
    invoke session
    finish_job question.1 session
  let w ← Prog.get
  let answer := (w.results.get? question.1).getD ""
  assign fun state => { state with plan_markdown := state.plan_markdown ++ "\n\n## Research result\n\n" ++ answer }
  assign (State.updateJob question.1 fun job => { job with research_recorded := true })
  persist

/-- The question of a request, unless it is blank. -/
def question_text (request : Json) : Option String :=
  match request with
  | .obj fields => some (str_field S.repr fields "question" "") |>.filter fun question => stripped S.classes question ≠ ""
  | _ => none

def open_questions : List (Nat × String × Session) → Controller (List (Nat × Option Session))
  | [] => return []
  | (index, text, session) :: rest => do
    let question ← open_question index text session
    let questions ← open_questions rest
    return question.toList ++ questions

/-- Every order of a list, by the numbers. -/
def arrange {α : Type} : List Nat → List α → List α
  | i :: order, x :: l => (arrange order l).insertIdx (min i l.length) x
  | _, l => l

/-- A session that was still out when the rest was abandoned. -/
def close_abandoned (turn : Planning) (index : Nat) : Controller Unit := do
  let w ← Prog.get
  match w.state.planning_request.bind (·.research_jobs.get? index) with
  | some ref =>
    if (w.state.jobs[ref]?).any fun job => job.role = .research ∧ job.status = .running then
      Prog.handle (fun _ => return) (finish_job ref (turn.questions.getD index {}))
  | none => return

/-- The questions of an accepted plan. -/
def launch_research_requests (proposal : Fields) (turn : Planning) : Controller Unit :=
  match (proposal.get? "research_jobs").getD (.arr []) with
  | .arr requests =>
    let asked := (requests.take S.config.parallelism).zipIdx.filterMap fun (request, index) =>
      (question_text S request).map fun text => (index, text, turn.questions.getD index {})
    Prog.handle
      (fun e => do
        Prog.modify fun w => { w with cancelled := true }
        turn.abandoned.forM (close_abandoned turn)
        .raise e)
      (do
        let questions ← open_questions asked
        (arrange turn.order questions).forM close_question)
  | _ => return

/-! ### The request -/

def changes_direction (review proposal : Fields) (helpers : Bool) : Bool :=
  match (review.get? "change_kind").or (proposal.get? "change_kind") with
  | some (.str change_kind) => change_kind = "direction"
  | some _ => false
  | none => ¬ helpers

/-- A direction that the campaign has no allowance for is dropped. -/
def drop_direction : Controller Unit := do
  assign fun state => { state with plan_markdown := (state.planning_request.bind (·.previous_plan)).getD state.plan_markdown }
  drop_checkpoint
  persist

/-- A reviewed draft is materialized, accepted and done with; or its skeletons are rejected. -/
def install_draft (attempt : Nat) (updated : Dag) (proposal : Fields) (turn : Planning) (draft : Draft) :
    Controller (Except String Bool) := do
  match ← materialize updated draft.outcome with
  | some error => do
    let critique := "Independent skeleton gate rejected proposal: " ++ error
    reject_attempt S attempt proposal "skeleton" critique false
    return .error critique
  | none => do
    accept_materialized_plan S
    launch_research_requests S proposal turn
    finalize_plan_checkpoint true
    drop_checkpoint
    persist
    return .ok true

/-- One draft, after the critique of the one before: rejected, dropped for lack of allowance, or accepted. -/
def draft_plan (reason : String) (attempt : Nat) (critique : String) (affected : Option (List String)) (refinement : Bool)
    (turn : Planning) (draft : Draft) : Controller (Except String Bool) := do
  ensure_active
  Prog.fault (.infrastructure "source_conflict")
  let reply ← planning_call (.proposal attempt) .orchestrator (.proposal (reason ++ "\n" ++ critique)) draft.proposal
  let proposal := S.json_report reply
  let w ← Prog.get
  match plan_text S proposal, apply_proposal S.classes S.repr S.dumps w.dag proposal S.config.max_nodes affected with
  | none, _ => do
    let critique := "planning report must include a concrete plan"
    reject_attempt S attempt proposal "proposal" critique true
    return .error critique
  | some _, .error error => do
    reject_attempt S attempt proposal "proposal" error.message false
    return .error error.message
  | some _, .ok (updated, skeletons) => do
    persist
    let reviewed ← planning_call (.review attempt) .review (.review reason) draft.review
    let review := S.json_report reviewed
    match review.get? "accepted" with
    | some (.bool true) => do
      let w ← Prog.get
      let changed_direction : Bool := (w.state.planning_request.all fun checkpoint => ¬ checkpoint.refinement_charged) ∧
        (refinement ∨ (affected.isSome ∧ changes_direction review proposal (¬ skeletons.keys.isEmpty)))
      if changed_direction ∧ S.config.plan_refinements.any (· ≤ w.state.plan_refinements) then
        drop_direction
        return .ok false
      else
        update_checkpoint fun checkpoint => { checkpoint with materialization := some { proposal, changed_direction } }
        persist
        install_draft S attempt updated proposal turn draft
    | accepted => do
      let critique := str_field S.repr review "critique" "review did not accept the graph"
      reject_attempt S attempt proposal "review" critique (match accepted with | some (.bool false) => false | _ => true)
      return .error critique

/-- Draft after draft. -/
def draft_plans (reason : String) (affected : Option (List String)) (refinement : Bool) (turn : Planning) :
    List Draft → Nat → String → Controller Bool
  | [], _, _ => .raise .killed
  | draft :: drafts, attempt, critique => do
    match ← draft_plan S reason attempt critique affected refinement turn draft with
    | .ok applied => return applied
    | .error critique => draft_plans reason affected refinement turn drafts (attempt + 1) critique

/-- An accepted proposal that a crash left is only finished. -/
def finish_accepted (proposal : Fields) (turn : Planning) : Controller Bool := do
  launch_research_requests S proposal turn
  finalize_plan_checkpoint true
  drop_checkpoint
  persist
  return true

/-- The transaction of the materialization was committed before a crash. -/
def State.materialized (state : State) : Bool :=
  ((state.planning_request.bind (·.materialization)).bind (·.transaction_id)).any fun id => state.source_transaction = some id

def seed_checkpoint (checkpoint : State → Checkpoint) : Controller Unit :=
  assign fun state => { state with planning_request := state.planning_request.or (some (checkpoint state)) }

/-- Plan until a reviewed proposal is materialized; a checkpoint that is there is resumed with its own request. -/
def research_plan (reason : String) (affected : Option (List String)) (refinement : Bool) (turn : Planning) :
    Controller Bool := do
  seed_checkpoint fun state => { reason, affected, refinement, previous_plan := some state.plan_markdown }
  ensure_active
  ensure_not_stalled
  let w ← Prog.get
  when w.state.materialized (accept_materialized_plan S)
  let w ← Prog.get
  match w.state.planning_request with
  | none => return false
  | some checkpoint =>
    match checkpoint.accepted_proposal with
    | some proposal => finish_accepted S proposal turn
    | none => do
      assign fun state => state.updateCheckpoint fun checkpoint => { checkpoint with
        previous_plan := checkpoint.previous_plan.or (some state.plan_markdown) }
      persist
      let outline ← planning_call .outline .orchestrator (.outline checkpoint.reason) turn.outline
      (plan_text S (S.json_report outline)).forM fun plan => do
        assign fun state => { state with plan_markdown := plan }
        persist
      let w ← Prog.get
      draft_plans S checkpoint.reason checkpoint.affected checkpoint.refinement turn turn.drafts w.progress.next_attempt
        w.progress.critique

end LeanFlow.Recovery
