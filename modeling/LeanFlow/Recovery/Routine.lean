import LeanFlow.Recovery.Kept
import LeanFlow.Goals.Planned

/-! Programs of neutral steps: persisting, sessions, planning. They keep every closed assertion. -/
namespace LeanFlow.Recovery
open General Goals Jobs

theorem keeps_bind {α β : Type} {P : World → Prop} {x : Controller α} {f : α → Controller β} (hx : Prog.Keeps Others P x)
    (hf : ∀ a, Prog.Keeps Others P (f a)) : Prog.Keeps Others P (x >>= f) := .bind others_refl hx hf

/-- A weaker assertion inside. -/
theorem outline_within {α : Type} {P Q A : World → Prop} {B : α → World → Prop} {E : Raised → World → Prop} {x : Controller α}
    (h : Prog.Outline Others Q A x B E) (hQ : ∀ w, Q w → P w) : Prog.Outline Others P A x B E :=
  fun w hw => (h w hw).weaken hQ

/-- A stronger assertion is kept meanwhile. -/
theorem keeps_within {α : Type} {P Q : World → Prop} {x : Controller α} (h : Prog.Keeps Others Q x) (hQ : ∀ w, Q w → P w) :
    Prog.Outline Others P Q x (fun _ => Q) fun _ => P :=
  (h.outline hQ).mono (fun _ h => h) (fun _ _ h => h) fun _ w h => hQ w h

namespace Closed
variable {P : World → Prop} (hP : Closed P)
include hP

/-! ### Single steps -/

theorem kept : Prog.Kept Others P P := hP.stable.self

/-- A neutral change. -/
theorem modify {f : World → World} (h : ∀ w, P w → Neutral w (f w)) : Prog.Keeps Others P (Prog.modify f : Controller Unit) :=
  .modify hP.stable fun w hw => hP.neutral w (f w) (h w hw) hw

theorem fault (e : Raised) : Prog.Keeps Others P (Prog.fault e) := .fault hP.stable e

theorem raise {α : Type} (e : Raised) : Prog.Keeps Others P (.raise e : Controller α) := .raise hP.stable e

theorem ret {α : Type} (a : α) : Prog.Keeps Others P (return a : Controller α) := .ret hP.stable a

theorem get : Prog.Keeps Others P (Prog.get : Controller World) := .get hP.stable

theorem when {c : Prop} [Decidable c] {x : Controller Unit} (hx : Prog.Keeps Others P x) :
    Prog.Keeps Others P (Recovery.when c x) := .ite hx (hP.ret ())

theorem forM {α : Type} {f : α → Controller Unit} (o : Option α) (h : ∀ a, Prog.Keeps Others P (f a)) :
    Prog.Keeps Others P (o.forM f) := by
  cases o with
  | none => exact hP.ret ()
  | some a => exact h a

/-- Fields that are planning's own. -/
theorem assign {f : State → State} (h : ∀ state, f state = { state with
      plan_refinements := (f state).plan_refinements
      plan_markdown := (f state).plan_markdown
      design_plan_complete := (f state).design_plan_complete
      source_transaction := (f state).source_transaction }) : Prog.Keeps Others P (Recovery.assign f) :=
  hP.modify fun w _ => by
    rw [h w.state]
    exact neutral_planning w ..

/-- The request of planning. -/
theorem request {f : State → State} (h : ∀ state, f state = { state with planning_request := (f state).planning_request })
    (hfollows : ∀ state checkpoint, (f state).planning_request = some checkpoint → checkpoint.follows state.planning_request) :
    Prog.Keeps Others P (Recovery.assign f) :=
  hP.modify fun w _ => by
    rw [h w.state]
    refine neutral_request w _ (fun reason habout checkpoint hcheckpoint => ?_) fun hstepped =>
      hstepped.mono (hfollows w.state) (keptJobs_refl _)
    obtain ⟨old, hold, hreason, -⟩ := hfollows w.state checkpoint hcheckpoint
    exact hreason.trans (habout old hold)

theorem update_journal (id : String) {f : Journal → Journal} (hf : ∀ rec, (f rec).core = rec.core) :
    Prog.Keeps Others P (Recovery.update_journal id f) :=
  hP.modify fun w _ => neutral_updateJournal w id hf

/-- A node may change, unless it becomes refuted by that. -/
theorem update_node (n : NodeRef) {f : Node → Node} (hf : ∀ node, (f node).status = .disproved → node.status = .disproved)
    (hid : ∀ node, (f node).id = node.id) : Prog.Keeps Others P (Recovery.update_node n f) :=
  hP.modify fun w _ => neutral_updateNode w n hf hid

/-- What the controller is told, and what its jobs answered. -/
theorem flags {f : World → World} (h : ∀ w, f w = { w with
      results := (f w).results, stopping := (f w).stopping, cancelled := (f w).cancelled }) :
    Prog.Keeps Others P (Prog.modify f : Controller Unit) :=
  hP.modify fun w _ => by
    rw [h w]
    exact neutral_flags w ..

/-- Writing the state is what the other threads do too. -/
theorem persist : Prog.Keeps Others P Recovery.persist := by
  refine keeps_bind (hP.fault _) fun _ => keeps_bind (hP.modify fun w _ => neutral_record w) fun _ =>
    keeps_bind (hP.fault _) fun _ => ?_
  exact .modify hP.stable fun w hw => hP.stable w w.publish hw (others_of_other .publish w _ rfl)

theorem ensure_active : Prog.Keeps Others P Recovery.ensure_active :=
  keeps_bind hP.get fun _ => .ite (hP.raise _) (hP.fault _)

/-! ### Sessions -/

omit hP in
/-- The job that a session opens. -/
theorem owned_open_job (role : Role) (purpose : Purpose) (node_id : String) (revision : Nat) (resumed : Option Nat)
    (w : World) : Owned (job_key role purpose node_id)
      ((resumed.filter (w.state.resumable (job_key role purpose node_id))).getD w.state.jobs.length)
      { w with state := w.state.open_job role purpose node_id revision resumed } := by
  show ∃ job : Job, (w.state.open_job role purpose node_id revision resumed).jobs[_]? = _ ∧ _
  unfold State.open_job
  cases h : resumed.filter (w.state.resumable (job_key role purpose node_id)) with
  | none =>
    rw [Option.getD_none]
    exact ⟨_, List.getElem?_concat_length, rfl⟩
  | some ref =>
    rw [Option.getD_some]
    have hresumable := (Option.filter_eq_some_iff.mp h).2
    rw [State.resumable, Option.any_eq_true] at hresumable
    obtain ⟨job, hjob, hsame⟩ := hresumable
    refine ⟨{ job with status := .running }, ?_, (of_decide_eq_true hsame).2⟩
    show (w.state.jobs.modify ref _)[ref]? = _
    rw [List.getElem?_modify_eq, hjob]
    rfl

/-- A job that is opened is one of this role and wording, whether new or taken up again. -/
theorem new_job (role : Role) (purpose : Purpose) (node : Option NodeRef) (session : Session) :
    Prog.Outline Others P P (Recovery.new_job role purpose node session)
      (fun ref w => P w ∧ Owned (job_key role purpose (node.elim "" NodeRef.id)) ref w) fun _ => P := by
  unfold Recovery.new_job
  split
  · exact .raise hP.kept fun _ h => h
  · rename_i resumed hresumed
    refine .act hP.kept fun w hw => ?_
    have hopen := hP.neutral _ _ (neutral_open_job w role purpose (node.elim "" NodeRef.id)
      (node.elim 0 fun n => (w.node n).revision) resumed) hw
    have hboth := hP.and (framed_owned (job_key role purpose (node.elim "" NodeRef.id))
      ((resumed.filter (w.state.resumable (job_key role purpose (node.elim "" NodeRef.id)))).getD w.state.jobs.length))
    refine (Prog.Outline.bind others_refl (hboth.persist.outline fun w h => h.1) fun _ => ?_).mono (fun _ h => h)
      (fun _ _ h => h) (fun _ _ h => h.1) _ ⟨hopen, owned_open_job role purpose _ _ resumed w⟩
    exact .ret ⟨hboth.stable, fun _ h => h.1⟩ fun _ h => h

theorem invoke (session : Session) : Prog.Keeps Others P (Recovery.invoke session) := by
  unfold Recovery.invoke
  split
  · exact hP.raise _
  · exact hP.ret _

/-- Settling a job, from a state in which its status may be assigned. -/
theorem finish_job {Q : World → Prop} (hQ : Prog.Kept Others P Q) {ref : Nat} {session : Session}
    (h : ∀ w, Q w → P { w with state := w.state.updateJob ref fun job => { job with status := session.status } }) :
    Prog.Outline Others P Q (Recovery.finish_job ref session) (fun _ => P) fun _ => P := by
  refine .bind (Q := fun _ => Q) others_refl (Prog.Outline.fault hQ hQ.inside) fun _ => ?_
  refine .bind (Q := fun _ => P) others_refl (.modify hQ hP.kept h) fun _ => ?_
  refine keeps_bind (hP.when (hP.flags fun _ => rfl)) fun _ => keeps_bind (hP.fault _) fun _ =>
    keeps_bind (hP.flags fun _ => rfl) fun _ => keeps_bind (hP.fault _) fun _ => keeps_bind hP.persist fun _ =>
    keeps_bind hP.get fun w => .ite (keeps_bind (hP.when (hP.flags fun _ => rfl)) fun _ => hP.raise _) (hP.ret _)

/-- Jobs whose end is not accounted for. -/
theorem finish_spare (ref : Nat) (session : Session) :
    Prog.Outline Others P (fun w => P w ∧ Spare ref w) (Recovery.finish_job ref session) (fun _ => P) fun _ => P := by
  refine hP.finish_job ⟨(hP.and (framed_spare ref)).stable, fun _ h => h.1⟩ fun w hw => ?_
  obtain ⟨hw, key, hspare, job, hjob, rfl⟩ := hw
  refine hP.neutral _ _ (neutral_updateJob w (fun job' hjob' => ?_) (fun id job' hjob' => ?_) fun _ => rfl) hw
  all_goals
    obtain rfl : job = job' := Option.some.inj (hjob.symm.trans hjob')
    have hafter : Job.key { job with status := session.status } = job.key := rfl
  · rw [job.decided_of_spare hspare, Job.decided_of_spare (hafter ▸ hspare)]
  · rw [job.refuted_of_spare hspare, Job.refuted_of_spare (hafter ▸ hspare)]

/-! ### Planning -/

/-- The checkpoint may change, but for its reason and its jobs. -/
theorem update_checkpoint {f : Checkpoint → Checkpoint}
    (hf : ∀ checkpoint, (f checkpoint).reason = checkpoint.reason ∧ (f checkpoint).steps = checkpoint.steps ∧
      (f checkpoint).research_jobs = checkpoint.research_jobs) :
    Prog.Keeps Others P (Recovery.update_checkpoint f) :=
  hP.request (fun _ => rfl) fun state checkpoint h => by
    obtain ⟨old, hold, rfl⟩ := Option.map_eq_some_iff.mp h
    exact ⟨old, hold, hf old⟩

omit hP in
/-- A step gets its job. -/
theorem neutral_step {w : World} {reason : String} {step : PlanStep} {prompt : Purpose} {ref : Nat} (habout : w.state.about reason)
    (hprompt : step.asks reason prompt) (hjob : Owned (.prompt step.role prompt) ref w) :
    Neutral w { w with state := w.state.updateCheckpoint fun checkpoint =>
      { checkpoint with steps := checkpoint.steps.set step ref } } := by
  refine neutral_request w _ (fun _ habout checkpoint hcheckpoint => ?_) fun hstepped checkpoint hcheckpoint => ?_
  · obtain ⟨old, hold, rfl⟩ := Option.map_eq_some_iff.mp hcheckpoint
    exact habout old hold
  obtain ⟨old, hold, rfl⟩ := Option.map_eq_some_iff.mp hcheckpoint
  refine ⟨fun key ref' href => ?_, (hstepped old hold).2⟩
  rw [Dict.get?_set] at href
  split at href
  · rename_i hkey
    subst hkey
    exact ⟨prompt, (habout old hold).symm ▸ hprompt, Option.some.inj href ▸ hjob⟩
  · exact (hstepped old hold).1 key ref' href

omit hP in
/-- A question gets its job. -/
theorem neutral_question {w : World} {index : Nat} {question : String} {ref : Nat}
    (hjob : Owned (.prompt .research (.question question)) ref w) :
    Neutral w { w with state := w.state.updateCheckpoint fun checkpoint =>
      { checkpoint with research_jobs := checkpoint.research_jobs.set index ref } } := by
  refine neutral_request w _ (fun _ habout checkpoint hcheckpoint => ?_) fun hstepped checkpoint hcheckpoint => ?_
  · obtain ⟨old, hold, rfl⟩ := Option.map_eq_some_iff.mp hcheckpoint
    exact habout old hold
  obtain ⟨old, hold, rfl⟩ := Option.map_eq_some_iff.mp hcheckpoint
  refine ⟨(hstepped old hold).1, fun key ref' href => ?_⟩
  rw [Dict.get?_set] at href
  split at href
  · rename_i hkey
    subst hkey
    exact ⟨question, Option.some.inj href ▸ hjob⟩
  · exact (hstepped old hold).2 key ref' href

/-- A step of a request about this, asked for with a wording of the step. -/
theorem planning_call {reason : String} (habout : ∀ w, P w → w.state.about reason) (step : PlanStep) {prompt : Purpose}
    (hprompt : step.asks reason prompt) (session : Session) :
    Prog.Keeps Others P (Recovery.planning_call step step.role prompt session) := by
  refine keeps_bind hP.ensure_active fun _ => keeps_bind hP.get fun w => ?_
  split
  · exact hP.ret _
  · have hkey : job_key step.role prompt "" = .prompt step.role prompt := by cases step <;> rfl
    have hspare : JobKey.accounted (.prompt step.role prompt) = false := by
      cases step with
      | outline => rw [hprompt]; rfl
      | proposal attempt => obtain ⟨critique, rfl⟩ := hprompt; rfl
      | review attempt => rfl
    refine Prog.Outline.bind others_refl (hkey ▸ hP.new_job step.role prompt none session) fun ref => ?_
    have hjob := hP.and (framed_owned (.prompt step.role prompt) ref)
    have hstep : Prog.Keeps Others (fun w => P w ∧ Owned (.prompt step.role prompt) ref w)
        (Recovery.update_checkpoint fun checkpoint => { checkpoint with steps := checkpoint.steps.set step ref }) :=
      hjob.modify fun w hw => neutral_step (habout w hw.1) hprompt hw.2
    refine Prog.Outline.bind others_refl (keeps_within hstep fun _ h => h.1) fun _ => ?_
    refine Prog.Outline.bind others_refl (keeps_within hjob.persist fun _ h => h.1) fun _ => ?_
    refine Prog.Outline.bind others_refl (keeps_within (hjob.invoke session) fun _ h => h.1) fun _ => ?_
    refine Prog.Outline.bind others_refl ((hP.finish_spare ref session).mono (fun _ h => ⟨h.1, _, hspare, h.2⟩)
      (fun _ _ h => h) fun _ _ h => h) fun _ => ?_
    exact keeps_bind hP.ensure_active fun _ => hP.ret _

variable (S : Setup)

theorem update_progress (f : Progress → Progress) : Prog.Keeps Others P (Recovery.update_progress f) :=
  hP.update_checkpoint fun _ => ⟨rfl, rfl, rfl⟩

theorem drop_checkpoint : Prog.Keeps Others P Recovery.drop_checkpoint := hP.request (fun _ => rfl) fun _ _ h => by cases h

theorem ensure_not_stalled : Prog.Keeps Others P Recovery.ensure_not_stalled :=
  keeps_bind hP.get fun _ => .ite (keeps_bind hP.persist fun _ => hP.raise _) (hP.ret _)

/-- A rejection is counted in the request alone. -/
theorem reject_attempt (attempt : Nat) (proposal : Fields) (stage critique : String) (malformed : Bool) :
    Prog.Keeps Others P (Recovery.reject_attempt S attempt proposal stage critique malformed) := by
  refine keeps_bind (hP.update_checkpoint fun _ => ⟨rfl, rfl, rfl⟩) fun _ => keeps_bind hP.get fun w => keeps_bind (hP.when ?_) fun _ =>
    hP.ensure_not_stalled
  exact keeps_bind (hP.update_progress _) fun _ => keeps_bind (hP.update_progress _) fun _ =>
    keeps_bind (hP.update_checkpoint fun _ => ⟨rfl, rfl, rfl⟩) fun _ => keeps_bind (hP.when (hP.update_progress _)) fun _ => hP.persist

/-- What is rolled back to has no refuted node that was not there. -/
theorem roll_back (begun : Option String) : Prog.Keeps Others P (Recovery.roll_back begun) := by
  cases begun with
  | none => exact hP.ret _
  | some id =>
    exact keeps_bind (hP.update_checkpoint fun _ => ⟨rfl, rfl, rfl⟩) fun _ =>
      hP.modify fun w hw => neutral_setDag w ((hP.truth w hw).graphs w.graph)

/-- The new graph has no refuted node that the old one has not. -/
theorem materialize (updated : Dag) (outcome : Outcome) :
    Prog.Outline Others P (fun w => P w ∧ Refuted w.certified updated) (Recovery.materialize updated outcome)
      (fun _ => P) fun _ => P := by
  have hboth := hP.and (framed_refuted updated)
  cases outcome with
  | rejected begun error =>
    exact (keeps_bind (hP.roll_back begun) fun _ => hP.ret _).mono (fun _ h => h.1) (fun _ _ h => h) fun _ _ h => h
  | failed begun e =>
    exact (keeps_bind (hP.roll_back begun) fun _ => hP.raise e).mono (fun _ h => h.1) (fun _ _ h => h) fun _ _ h => h
  | committed id =>
    refine .bind others_refl (keeps_within (hboth.update_checkpoint fun _ => ⟨rfl, rfl, rfl⟩) fun _ h => h.1) fun _ => ?_
    refine .bind (Q := fun _ => P) others_refl (.modify ⟨hboth.stable, fun _ h => h.1⟩ hP.kept fun w hw => ?_) fun _ => ?_
    · exact hP.neutral _ _ (neutral_setDag w hw.2) hw.1
    · exact keeps_bind (hP.assign fun _ => rfl) fun _ => keeps_bind hP.persist fun _ => hP.ret _

theorem accept_materialized_plan : Prog.Keeps Others P (Recovery.accept_materialized_plan S) := by
  refine keeps_bind hP.get fun w => ?_
  split
  · exact hP.ret _
  · refine keeps_bind (hP.when ?_) fun _ => keeps_bind (hP.assign fun _ => rfl) fun _ =>
      keeps_bind (hP.update_checkpoint fun _ => ⟨rfl, rfl, rfl⟩) fun _ =>
      keeps_bind (hP.update_checkpoint fun _ => ⟨rfl, rfl, rfl⟩) fun _ => hP.persist
    exact keeps_bind (hP.assign fun _ => rfl) fun _ => hP.update_checkpoint fun _ => ⟨rfl, rfl, rfl⟩

theorem finalize_plan_checkpoint (applied : Bool) : Prog.Keeps Others P (Recovery.finalize_plan_checkpoint applied) := by
  refine keeps_bind hP.get fun w => ?_
  split
  · exact hP.ret _
  · exact keeps_bind (hP.forM _ fun owner => hP.update_journal owner fun _ => rfl) fun _ => hP.when (hP.assign fun _ => rfl)

/-! ### Questions -/

/-- A question that is still out has a job of research. -/
theorem open_question (index : Nat) (question : String) (session : Session) :
    Prog.Outline Others P P (Recovery.open_question index question session) (fun question w => P w ∧ Asked question.toList w) fun _ => P := by
  have hnone (question : Option (Nat × Option Session)) (hout : ∀ q ∈ question, q.2 = none) :
      Prog.Outline Others P P (return question : Controller _) (fun question w => P w ∧ Asked question.toList w) fun _ => P :=
    .ret hP.kept fun w hw => ⟨hw, fun q hq hsome => by
      rw [hout q (Option.mem_toList.mp hq)] at hsome
      cases hsome⟩
  refine .bind others_refl hP.ensure_active fun _ => .bind others_refl hP.get fun w =>
    .ite (fun _ => hnone none fun q hq => absurd hq (Option.not_mem_none q)) fun _ => ?_
  split
  · exact hnone _ fun q hq => Option.some.inj hq ▸ rfl
  · refine .bind others_refl (hP.new_job .research (.question question) none session) fun ref => ?_
    have hjob := hP.and (framed_owned (.prompt .research (.question question)) ref)
    have hquestion : Prog.Keeps Others (fun w => P w ∧ Owned (.prompt .research (.question question)) ref w)
        (Recovery.update_checkpoint fun checkpoint => { checkpoint with research_jobs := checkpoint.research_jobs.set index ref }) :=
      hjob.modify fun w hw => neutral_question hw.2
    refine .bind others_refl (keeps_within hquestion fun _ h => h.1) fun _ => ?_
    refine .bind others_refl (keeps_within hjob.persist fun _ h => h.1) fun _ => ?_
    refine .ret ⟨hjob.stable, fun _ h => h.1⟩ fun w hw => ⟨hw.1, fun q hq _ => ?_⟩
    obtain rfl := List.mem_singleton.mp hq
    exact ⟨_, rfl, hw.2⟩

theorem open_questions (asked : List (Nat × String × Session)) :
    Prog.Outline Others P P (Recovery.open_questions asked) (fun questions w => P w ∧ Asked questions w) fun _ => P := by
  induction asked generalizing P with
  | nil => exact .ret hP.kept fun w hw => ⟨hw, fun q hq => absurd hq List.not_mem_nil⟩
  | cons first rest ih =>
    refine .bind others_refl (hP.open_question first.1 first.2.1 first.2.2) fun question => ?_
    have hfirst := hP.and (framed_asked question.toList)
    refine .bind others_refl (outline_within ((ih hfirst).mono (fun _ h => h) (fun _ _ h => h) fun _ _ h => h.1) fun _ h => h.1)
      fun questions => ?_
    refine .ret ⟨(hfirst.and (framed_asked questions)).stable, fun _ h => h.1.1⟩ fun w hw => ⟨hw.1.1, fun q hq => ?_⟩
    exact (List.mem_append.mp hq).elim (hw.1.2 q) (hw.2 q)

/-- Such a job is finished without an account. -/
theorem close_question (questions : List (Nat × Option Session)) {question : Nat × Option Session} (hquestion : question ∈ questions) :
    Prog.Keeps Others (fun w => P w ∧ Asked questions w) (Recovery.close_question question) := by
  have hasked := hP.and (framed_asked questions)
  refine keeps_bind hasked.ensure_active fun _ => keeps_bind ?_ fun _ => keeps_bind hasked.get fun w =>
    keeps_bind (hasked.assign fun _ => rfl) fun _ => keeps_bind (hasked.modify fun w _ => ?_) fun _ => hasked.persist
  · cases hout : question.2 with
    | none => exact hasked.ret _
    | some session =>
      refine keeps_bind (hasked.invoke session) fun _ => (hasked.finish_spare question.1 session).mono
        (fun w hw => ⟨hw, hw.2 question hquestion ?_⟩) (fun _ _ h => h) fun _ _ h => h
      rw [hout]
      rfl
  · exact neutral_updateJob w (fun _ _ => rfl) (fun _ _ _ => rfl) fun _ => rfl

/-- So is a session that was abandoned, since its job is read before. -/
theorem close_abandoned (turn : Planning) (index : Nat) : Prog.Keeps Others P (Recovery.close_abandoned turn index) := by
  refine Prog.Outline.bind (Q := fun w w' => P w' ∧ w.state.Read w'.state) others_refl
    (.get hP.kept fun w w' hw h => ⟨hP.stable w w' hw h, stable_read w.state w w' (.refl _) h⟩) fun w => ?_
  have hread : Prog.Kept Others P fun w' => P w' ∧ w.state.Read w'.state :=
    ⟨hP.stable.and (stable_read w.state), fun _ h => h.1⟩
  split
  · rename_i ref _
    refine .ite (fun hrunning => .handle others_refl (hP.finish_spare ref _ |>.mono (fun w' hw' => ⟨hw'.1, ?_⟩)
      (fun _ _ h => h) fun _ _ h => h) fun _ => hP.ret _) fun _ => .ret hread fun _ h => h.1
    obtain ⟨job, hjob, hresearch⟩ := (Option.any_eq_true _ _).mp hrunning
    obtain ⟨dag, hstate⟩ := hw'.2
    refine ⟨job.key, ?_, job, ?_, rfl⟩
    · rw [Job.accounted_key, (of_decide_eq_true hresearch).1]
      rfl
    · rw [hstate]
      exact hjob
  · exact .ret hread fun _ h => h.1

omit hP in
/-- An order only reorders. -/
theorem mem_of_arrange {α : Type} {x : α} {order : List Nat} {l : List α} (h : x ∈ arrange order l) : x ∈ l := by
  induction order generalizing l with
  | nil => exact h
  | cons i order ih =>
    cases l with
    | nil => exact h
    | cons y l =>
      rcases List.eq_or_mem_of_mem_insertIdx h with rfl | h
      · exact List.mem_cons_self ..
      · exact List.mem_cons_of_mem _ (ih h)

/-- The questions, whatever their order and whichever of them fails. -/
theorem launch_research_requests (proposal : Fields) (turn : Planning) :
    Prog.Keeps Others P (Recovery.launch_research_requests S proposal turn) := by
  unfold Recovery.launch_research_requests
  split
  · refine .handle others_refl ?_ fun e => keeps_bind (hP.flags fun _ => rfl) fun _ =>
      keeps_bind (.forM others_refl hP.stable fun index _ => hP.close_abandoned turn index) fun _ => hP.raise e
    refine Prog.Outline.bind others_refl (hP.open_questions _) fun questions => ?_
    have hasked := hP.and (framed_asked questions)
    exact (keeps_within (.forM others_refl hasked.stable fun question hquestion =>
      hP.close_question questions (mem_of_arrange hquestion)) fun _ h => h.1).mono (fun _ h => h) (fun _ _ h => h.1) fun _ _ h => h
  · exact hP.ret _

/-! ### The request -/

omit hP in
/-- A new node is pending. -/
theorem status_new_node {C : Source.CharClass} {repr : Json → String} {updated : Dag} {node_id : String} {raw : Fields}
    {node : Node} {skeleton : Source.Text} (h : new_node C repr updated node_id raw = .ok (node, skeleton)) :
    node.status = .pending := by
  obtain ⟨entry, -, h⟩ := bind_eq_ok.mp h
  obtain ⟨mask, -, h⟩ := bind_eq_ok.mp h
  dsimp only at h
  split at h
  · cases h
  · split at h
    · cases h
    · split at h
      · cases h
      · obtain ⟨relative, -, h⟩ := bind_eq_ok.mp h
        split_ifs at h
        split at h
        · cases h
        · obtain ⟨rfl, -⟩ := Prod.mk.inj (Except.ok.inj h)
          rfl

omit hP in
/-- A proposal refutes nothing. -/
theorem refuted_apply_proposal {C : Source.CharClass} {repr dumps : Json → String} {dag updated : Dag} {proposal : Fields}
    {max_nodes : Nat} {affected : Option (List String)} {skeletons : Dict String Source.Text} {p : String → Prop}
    (hdag : Refuted p dag) (h : apply_proposal C repr dumps dag proposal max_nodes affected = .ok (updated, skeletons)) :
    Refuted p updated := by
  unfold apply_proposal at h
  split at h
  · obtain ⟨draft, hdraft, h⟩ := bind_eq_ok.mp h
    have hkept : Refuted p draft.updated := by
      refine foldlM_preserves (P := fun draft : Goals.Draft => Refuted p draft.updated) (fun raw _ draft draft' hold happly => ?_)
        hdag hdraft
      unfold apply_node at happly
      split at happly
      · dsimp only at happly
        split at happly
        · split at happly
          · exact Except.ok.inj happly ▸ hold
          · obtain ⟨updated, hupdate, happly⟩ := bind_eq_ok.mp happly
            rw [← Except.ok.inj happly]
            unfold Goals.update_node at hupdate
            dsimp only at hupdate
            split at hupdate
            · cases hupdate
            · split at hupdate
              · cases hupdate
              · split at hupdate
                · cases hupdate
                · rw [← Except.ok.inj hupdate]
                  refine hold.update (fun node hstatus => ?_) fun node => (depend_same _ node).1
                  unfold Node.depend at hstatus
                  split at hstatus
                  · cases hstatus
                  · exact hstatus
        · obtain ⟨⟨node, skeleton⟩, hnode, happly⟩ := bind_eq_ok.mp happly
          rw [← Except.ok.inj happly]
          intro node' hmem hstatus
          rcases List.mem_append.mp hmem with hmem | hmem
          · exact hold node' hmem hstatus
          · rw [List.mem_singleton.mp hmem, status_new_node hnode] at hstatus
            cases hstatus
      · cases happly
    obtain ⟨_, -, h⟩ := bind_eq_ok.mp h
    dsimp only at h
    split at h
    · cases h
    · obtain ⟨_, -, h⟩ := bind_eq_ok.mp h
      obtain ⟨_, -, h⟩ := bind_eq_ok.mp h
      obtain ⟨rfl, -⟩ := Prod.mk.inj (Except.ok.inj h)
      exact fun node hnode => hkept node (List.mem_filter.mp hnode).1
  · cases h

/-- A draft is installed over a graph that refutes nothing new. -/
theorem install_draft (attempt : Nat) (updated : Dag) (proposal : Fields) (turn : Planning) (draft : Draft) :
    Prog.Outline Others P (fun w => P w ∧ Refuted w.certified updated) (Recovery.install_draft S attempt updated proposal turn draft)
      (fun _ => P) fun _ => P := by
  refine .bind others_refl (hP.materialize updated draft.outcome) fun error => ?_
  cases error with
  | some error => exact keeps_bind (hP.reject_attempt S _ _ _ _ _) fun _ => hP.ret _
  | none =>
    exact keeps_bind (hP.accept_materialized_plan S) fun _ => keeps_bind (hP.launch_research_requests S proposal turn) fun _ =>
      keeps_bind (hP.finalize_plan_checkpoint true) fun _ => keeps_bind hP.drop_checkpoint fun _ => keeps_bind hP.persist fun _ =>
      hP.ret _

/-- One draft, whichever way it ends. -/
theorem draft_plan {reason : String} (habout : ∀ w, P w → w.state.about reason) (attempt : Nat) (critique : String)
    (affected : Option (List String)) (refinement : Bool) (turn : Planning) (draft : Draft) :
    Prog.Keeps Others P (Recovery.draft_plan S reason attempt critique affected refinement turn draft) := by
  refine keeps_bind hP.ensure_active fun _ => keeps_bind (hP.fault _) fun _ =>
    keeps_bind (hP.planning_call habout (.proposal attempt) ⟨critique, rfl⟩ _) fun reply => ?_
  refine Prog.Outline.bind (Q := fun w w' => P w' ∧ Refuted w'.certified w.dag) others_refl (.get hP.kept fun w w' hw h => ?_)
    fun w => ?_
  · exact (hP.and (framed_refuted w.dag)).stable w w' ⟨hw, (hP.truth w hw).graphs w.graph⟩ h
  have hread := hP.and (framed_refuted w.dag)
  split
  · exact (keeps_bind (hP.reject_attempt S _ _ _ _ _) fun _ => hP.ret _).mono (fun _ h => h.1) (fun _ _ h => h) fun _ _ h => h
  · exact (keeps_bind (hP.reject_attempt S _ _ _ _ _) fun _ => hP.ret _).mono (fun _ h => h.1) (fun _ _ h => h) fun _ _ h => h
  · rename_i updated skeletons _ happly
    refine .bind others_refl (keeps_within hread.persist fun _ h => h.1) fun _ => ?_
    refine .bind others_refl (keeps_within (hread.planning_call (fun w h => habout w h.1) (.review attempt) rfl _)
      fun _ h => h.1) fun reviewed => ?_
    dsimp only
    split
    · refine .bind others_refl (keeps_within hread.get fun _ h => h.1) fun w' => .ite (fun _ => ?_) fun _ => ?_
      · exact (keeps_bind (keeps_bind (hP.assign fun _ => rfl) fun _ => keeps_bind hP.drop_checkpoint fun _ => hP.persist)
          fun _ => hP.ret _).mono (fun _ h => h.1) (fun _ _ h => h) fun _ _ h => h
      · refine .bind others_refl (keeps_within (hread.update_checkpoint fun _ => ⟨rfl, rfl, rfl⟩) fun _ h => h.1) fun _ => ?_
        refine .bind others_refl (keeps_within hread.persist fun _ h => h.1) fun _ => ?_
        exact (hP.install_draft S _ _ _ _ _).mono (fun w h => ⟨h.1, refuted_apply_proposal h.2 happly⟩) (fun _ _ h => h) fun _ _ h => h
    · exact (keeps_bind (hP.reject_attempt S _ _ _ _ _) fun _ => hP.ret _).mono (fun _ h => h.1) (fun _ _ h => h) fun _ _ h => h

/-- Draft after draft, each after the critique of the one before. -/
theorem draft_plans {reason : String} (habout : ∀ w, P w → w.state.about reason) (affected : Option (List String))
    (refinement : Bool) (turn : Planning) (drafts : List Draft) (attempt : Nat) (critique : String) :
    Prog.Keeps Others P (Recovery.draft_plans S reason affected refinement turn drafts attempt critique) := by
  induction drafts generalizing attempt critique with
  | nil => exact hP.raise _
  | cons draft drafts ih =>
    refine keeps_bind (hP.draft_plan S habout attempt critique affected refinement turn draft) fun applied => ?_
    cases applied with
    | error critique => exact ih (attempt + 1) critique
    | ok applied => exact hP.ret applied

/-- The outline, and the drafts after it. -/
theorem outlined {checkpoint : Checkpoint} (habout : ∀ w, P w → w.state.about checkpoint.reason) (turn : Planning) :
    Prog.Keeps Others P (do
      Recovery.assign fun state => state.updateCheckpoint fun checkpoint => { checkpoint with
        previous_plan := checkpoint.previous_plan.or (some state.plan_markdown) }
      Recovery.persist
      let outline ← Recovery.planning_call .outline .orchestrator (.outline checkpoint.reason) turn.outline
      (plan_text S (S.json_report outline)).forM fun plan => do
        Recovery.assign fun state => { state with plan_markdown := plan }
        Recovery.persist
      let w ← Prog.get
      Recovery.draft_plans S checkpoint.reason checkpoint.affected checkpoint.refinement turn turn.drafts w.progress.next_attempt
        w.progress.critique) := by
  refine keeps_bind (hP.request (fun _ => rfl) fun state c h => ?_) fun _ => keeps_bind hP.persist fun _ =>
    keeps_bind (hP.planning_call habout .outline rfl _) fun outline =>
    keeps_bind (hP.forM _ fun plan => keeps_bind (hP.assign fun _ => rfl) fun _ => hP.persist) fun _ =>
    keeps_bind hP.get fun w => hP.draft_plans S habout _ _ _ _ _ _
  obtain ⟨old, hold, rfl⟩ := Option.map_eq_some_iff.mp h
  exact ⟨old, hold, rfl, rfl, rfl⟩

/-- A request that is there is kept, and a new one starts without steps. -/
theorem seed_checkpoint (hseed : Seedable P) {checkpoint : State → Checkpoint} (hfresh : ∀ state, (checkpoint state).fresh) :
    Prog.Keeps Others P (Recovery.seed_checkpoint checkpoint) :=
  .modify hP.stable fun w hw => hseed w (checkpoint w.state) (hfresh w.state) hw

/-- **Planning is not accounted for**: a whole request keeps what the neutral steps keep. -/
theorem research_plan (hseed : Seedable P) (reason : String) (affected : Option (List String)) (refinement : Bool) (turn : Planning) :
    Prog.Keeps Others P (Recovery.research_plan S reason affected refinement turn) := by
  refine keeps_bind (hP.seed_checkpoint hseed fun _ => ⟨rfl, rfl⟩) fun _ => keeps_bind hP.ensure_active fun _ =>
    keeps_bind hP.ensure_not_stalled fun _ =>
    keeps_bind hP.get fun w => keeps_bind (hP.when (hP.accept_materialized_plan S)) fun _ => ?_
  -- The request that is read is the one that the steps are recorded in.
  refine Prog.Outline.bind (Q := fun w w' => P w' ∧ w'.state.planning_request = w.state.planning_request) others_refl
    (.get hP.kept fun w w' hw h => ⟨hP.stable w w' hw h,
      stable_state (fun state => state.planning_request = w.state.planning_request) (fun _ _ h => h) w w' rfl h⟩) fun w => ?_
  split
  · exact (hP.ret _).mono (fun _ h => h.1) (fun _ _ h => h) fun _ _ h => h
  · rename_i checkpoint hrequest
    split
    · refine Prog.Outline.mono (P := P) ?_ (fun _ h => h.1) (fun _ _ h => h) fun _ _ h => h
      exact keeps_bind (hP.launch_research_requests S _ _) fun _ => keeps_bind (hP.finalize_plan_checkpoint true) fun _ =>
        keeps_bind hP.drop_checkpoint fun _ => keeps_bind hP.persist fun _ => hP.ret _
    · have habout := hP.and (framed_about checkpoint.reason)
      refine (keeps_within (habout.outlined S (fun _ h => h.2) turn) fun _ h => h.1).mono (fun w' h => ⟨h.1, fun c hc => ?_⟩)
        (fun _ _ h => h.1) fun _ _ h => h
      rw [h.2, hrequest] at hc
      exact Option.some.inj hc ▸ rfl

end Closed

end LeanFlow.Recovery
