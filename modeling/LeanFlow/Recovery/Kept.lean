import LeanFlow.Recovery.Account

/-! What the rest of recovery leaves alone.

`Neutral` is a step that the accounts do not see. A `Closed` assertion is kept by such steps and by the
other threads, and with it every program that consists of them: sessions, persisting, planning. -/
namespace LeanFlow.Recovery
open General Goals Jobs

/-! ### The other threads -/

def Others : World → World → Prop := Relation.ReflTransGen fun w w' => ∃ k, other k w = some w'

theorem others_refl (w : World) : Others w w := .refl

theorem others_trans (w w' w'' : World) (h : Others w w') (h' : Others w' w'') : Others w w'' := h.trans h'

theorem others_of_other (k : Other) (w w' : World) (h : other k w = some w') : Others w w' := .single ⟨k, h⟩

theorem stable_of_other {P : World → Prop} (hrecord : ∀ w, P w → P w.record) (hpublish : ∀ w, P w → P w.publish)
    (hstop : ∀ w, P w → P { w with stopping := true, cancelled := true }) : Prog.Stable Others P := by
  intro w w' hw hothers
  induction hothers with
  | refl => exact hw
  | tail _ hstep ih =>
    obtain ⟨k, hk⟩ := hstep
    cases k with
    | record => exact Option.some.inj hk ▸ hrecord _ ih
    | publish => exact Option.some.inj hk ▸ hpublish _ ih
    | stop => exact Option.some.inj hk ▸ hstop _ ih

/-- It does not depend on the graph that was recorded last. -/
def Undated (p : State → Prop) : Prop := ∀ state dag, p state → p { state with dag }

/-- What was read is still so. -/
theorem stable_state (p : State → Prop) (hp : Undated p) : Prog.Stable Others fun w => p w.state :=
  stable_of_other (fun w h => hp w.state w.dag h) (fun _ h => h) fun _ h => h

/-- What was read a moment ago: another thread may have recorded the graph since. -/
def State.Read (state state' : State) : Prop := ∃ dag, state' = { state with dag }

theorem State.Read.refl (state : State) : state.Read state := ⟨state.dag, rfl⟩

theorem undated_read (state : State) : Undated state.Read := by
  rintro _ dag ⟨_, rfl⟩
  exact ⟨dag, rfl⟩

theorem stable_read (state : State) : Prog.Stable Others fun w => state.Read w.state := stable_state _ (undated_read state)

/-! ### Guidance comes from decisions -/

/-- What a prover is told is what was decided. -/
structure Guidance.of (guidance : Guidance) (id : String) (record : Record) : Prop where
  node_id : record.node_id = id
  action : record.decision.action = guidance.action
  instructions : record.decision.instructions = guidance.instructions
  rationale : record.decision.rationale = guidance.rationale
  revision : record.node_revision = guidance.node_revision

/-- Every guidance has its decision on record. -/
def Guided (state : State) : Prop :=
  ∀ id guidance, state.prover_recovery_guidance.get? id = some guidance →
    ∃ record, state.recovery_decisions[guidance.decision_index]? = some record ∧ guidance.of id record

/-! ### Planning replays its own sessions -/

/-- Jobs are only added, and each keeps what it is found by. -/
def KeptJobs (jobs jobs' : List Job) : Prop :=
  ∀ (ref : Nat) (job : Job), jobs[ref]? = some job → ∃ job' : Job, jobs'[ref]? = some job' ∧ job'.key = job.key

theorem keptJobs_refl (jobs : List Job) : KeptJobs jobs jobs := fun _ job h => ⟨job, h, rfl⟩

theorem keptJobs_modify (jobs : List Job) (n : Nat) {f : Job → Job} (hf : ∀ job, (f job).key = job.key) :
    KeptJobs jobs (jobs.modify n f) := by
  intro ref job h
  rw [List.getElem?_modify, h]
  refine ⟨_, rfl, ?_⟩
  split
  · exact hf job
  · rfl

theorem keptJobs_append (jobs jobs' : List Job) : KeptJobs jobs (jobs ++ jobs') := fun _ job h =>
  ⟨job, (List.getElem?_append_left (List.getElem?_eq_some_iff.mp h).1).trans h, rfl⟩

theorem keptJobs_map (jobs : List Job) {f : Job → Job} (hf : ∀ job, (f job).key = job.key) : KeptJobs jobs (jobs.map f) := by
  intro ref job h
  rw [List.getElem?_map, h]
  exact ⟨_, rfl, hf job⟩

/-- The job of this number was started for this. -/
def Started (jobs : List Job) (ref : Nat) (key : JobKey) : Prop := ∃ job : Job, jobs[ref]? = some job ∧ job.key = key

theorem Started.mono {jobs jobs' : List Job} {ref : Nat} {key : JobKey} (h : Started jobs ref key)
    (hjobs : KeptJobs jobs jobs') : Started jobs' ref key := by
  obtain ⟨job, hjob, hkey⟩ := h
  obtain ⟨job', hjob', hsame⟩ := hjobs ref job hjob
  exact ⟨job', hjob', hsame.trans hkey⟩

def PlanStep.role : PlanStep → Role
  | .outline | .proposal _ => .orchestrator
  | .review _ => .review

/-- The wordings of a step; a proposal is asked for with the critique of the one before. -/
def PlanStep.asks (reason : String) : PlanStep → Purpose → Prop
  | .outline, prompt => prompt = .outline reason
  | .proposal _, prompt => ∃ critique, prompt = .proposal (reason ++ "\n" ++ critique)
  | .review _, prompt => prompt = .review reason

/-- Every step of the request has a job that was started with its role and its wording, about the reason of the request; every
question has one of research. -/
def Stepped (state : State) : Prop :=
  ∀ checkpoint, state.planning_request = some checkpoint →
    (∀ step ref, checkpoint.steps.get? step = some ref →
      ∃ prompt, step.asks checkpoint.reason prompt ∧ Started state.jobs ref (.prompt step.role prompt)) ∧
    ∀ index ref, checkpoint.research_jobs.get? index = some ref →
      ∃ question, Started state.jobs ref (.prompt .research (.question question))

/-- A checkpoint that goes on with the one before. -/
def Checkpoint.follows (checkpoint : Checkpoint) (request : Option Checkpoint) : Prop :=
  ∃ old, request = some old ∧ checkpoint.reason = old.reason ∧ checkpoint.steps = old.steps ∧
    checkpoint.research_jobs = old.research_jobs

theorem Stepped.mono {state state' : State} (h : Stepped state)
    (hrequest : ∀ checkpoint, state'.planning_request = some checkpoint → checkpoint.follows state.planning_request)
    (hjobs : KeptJobs state.jobs state'.jobs) : Stepped state' := by
  intro checkpoint hcheckpoint
  obtain ⟨old, hold, hreason, hsteps, hquestions⟩ := hrequest checkpoint hcheckpoint
  rw [hreason, hsteps, hquestions]
  refine ⟨fun step ref href => ?_, fun index ref href => ?_⟩
  · obtain ⟨prompt, hprompt, hstarted⟩ := (h old hold).1 step ref href
    exact ⟨prompt, hprompt, hstarted.mono hjobs⟩
  · obtain ⟨question, hstarted⟩ := (h old hold).2 index ref href
    exact ⟨question, hstarted.mono hjobs⟩

/-- The request is the same. -/
theorem Stepped.of_jobs {state state' : State} (h : Stepped state) (hrequest : state'.planning_request = state.planning_request)
    (hjobs : KeptJobs state.jobs state'.jobs) : Stepped state' :=
  h.mono (fun checkpoint hcheckpoint => ⟨checkpoint, hrequest ▸ hcheckpoint, rfl, rfl, rfl⟩) hjobs

/-- A request is about this. -/
def State.about (reason : String) (state : State) : Prop :=
  ∀ checkpoint, state.planning_request = some checkpoint → checkpoint.reason = reason

/-- A new request has no steps yet. -/
def Checkpoint.fresh (checkpoint : Checkpoint) : Prop := checkpoint.steps = .empty ∧ checkpoint.research_jobs = .empty

theorem Stepped.seed {state : State} (h : Stepped state) {checkpoint : Checkpoint} (hfresh : checkpoint.fresh) :
    Stepped { state with planning_request := state.planning_request.or (some checkpoint) } := by
  intro c hc
  cases hrequest : state.planning_request with
  | some old =>
    rw [hrequest] at hc
    exact h c (hrequest.trans hc)
  | none =>
    rw [hrequest] at hc
    obtain rfl : checkpoint = c := Option.some.inj hc
    rw [hfresh.1, hfresh.2]
    exact ⟨(fun _ _ h => by cases h), fun _ _ h => by cases h⟩

/-! ### Refutations are checked -/

def World.certified (w : World) (id : String) : Prop := (id, true) ∈ w.checked

/-- A refuted node of the graph satisfies `p`. -/
def Refuted (p : String → Prop) (dag : Dag) : Prop := ∀ node ∈ dag.nodes, node.status = .disproved → p node.id

/-- What is called refuted, or disproved, was checked, what a prover is told was decided, and what planning replays it
asked. -/
structure Truth (w : World) : Prop where
  graphs : ∀ g, Refuted w.certified (w.graphs g)
  live : Refuted w.certified w.state.dag
  durable : Refuted w.certified w.disk.dag
  disproof : ∀ id, w.state.disproof = some id → w.certified id
  disproof_durable : ∀ id, w.disk.disproof = some id → w.certified id
  guided : Guided w.state
  guided_durable : Guided w.disk
  stepped : Stepped w.state
  stepped_durable : Stepped w.disk

theorem Truth.record {w : World} (h : Truth w) : Truth w.record := { h with live := h.graphs w.graph }

theorem Truth.publish {w : World} (h : Truth w) : Truth w.publish :=
  { h with durable := h.live, disproof_durable := h.disproof, guided_durable := h.guided, stepped_durable := h.stepped }

theorem stable_truth : Prog.Stable Others Truth :=
  stable_of_other (fun _ h => h.record) (fun _ h => h.publish) fun _ h =>
    ⟨h.graphs, h.live, h.durable, h.disproof, h.disproof_durable, h.guided, h.guided_durable, h.stepped, h.stepped_durable⟩

theorem Truth.setDag {w : World} (h : Truth w) {dag : Dag} (hdag : Refuted w.certified dag) : Truth (w.setDag dag) :=
  { h with
    graphs := fun g => by
      by_cases hg : g = w.graph + 1
      · subst hg
        exact (congrArg (Refuted w.certified) (Function.update_self ..)).mpr hdag
      · exact (congrArg (Refuted w.certified) (Function.update_of_ne hg ..)).mpr (h.graphs g) }

/-- The nodes of one graph are changed. -/
theorem Truth.update {w : World} (h : Truth w) (g : Nat) {dag : Dag} (hdag : Refuted w.certified dag) :
    Truth { w with graphs := Function.update w.graphs g dag } :=
  { h with
    graphs := fun g' => by
      by_cases hg : g' = g
      · subst hg
        exact (congrArg (Refuted w.certified) (Function.update_self ..)).mpr hdag
      · exact (congrArg (Refuted w.certified) (Function.update_of_ne hg ..)).mpr (h.graphs g') }

theorem Refuted.map {p : String → Prop} {dag : Dag} (h : Refuted p dag) {f : Node → Node}
    (hf : ∀ node, (f node).status = .disproved → node.status = .disproved ∧ (f node).id = node.id) :
    Refuted p { dag with nodes := dag.nodes.map f } := by
  intro node hnode hstatus
  obtain ⟨node, hmem, rfl⟩ := List.mem_map.mp hnode
  obtain ⟨hold, hid⟩ := hf node hstatus
  exact hid ▸ h node hmem hold

theorem Refuted.update {p : String → Prop} {dag : Dag} (h : Refuted p dag) {id : String} {f : Node → Node}
    (hf : ∀ node, (f node).status = .disproved → node.status = .disproved) (hid : ∀ node, (f node).id = node.id) :
    Refuted p (dag.update id f) := by
  refine h.map fun node hstatus => ?_
  split at hstatus
  · rw [if_pos ‹_›]
    exact ⟨hf node hstatus, hid node⟩
  · rw [if_neg ‹_›]
    exact ⟨hstatus, rfl⟩

/-! ### Neutral steps -/

structure Neutral (w w' : World) : Prop where
  account : w'.state.account = w.state.account
  journals : ∀ id, (w'.journal id).map Journal.core = (w.journal id).map Journal.core
  jobs : KeptJobs w.state.jobs w'.state.jobs
  proofs : w'.state.negation_proofs = w.state.negation_proofs
  disk : w'.disk = w.disk
  checked : w'.checked = w.checked
  request : ∀ reason, w.state.about reason → w'.state.about reason
  truth : Truth w → Truth w'

/-- Nothing that is accounted for is changed. -/
theorem neutral_of_eq {w w' : World} (haccount : w'.state.account = w.state.account)
    (hjournals : w'.state.recovery_in_flight = w.state.recovery_in_flight) (hjobs : w'.state.jobs = w.state.jobs)
    (hproofs : w'.state.negation_proofs = w.state.negation_proofs) (hdisk : w'.disk = w.disk) (hchecked : w'.checked = w.checked)
    (hrequest : ∀ reason, w.state.about reason → w'.state.about reason) (htruth : Truth w → Truth w') : Neutral w w' where
  account := haccount
  journals id := by rw [World.journal, hjournals, World.journal]
  jobs ref job h := ⟨job, by rw [hjobs, h], rfl⟩
  proofs := hproofs
  disk := hdisk
  checked := hchecked
  request := hrequest
  truth := htruth

/-- The state's graph is that of the controller. -/
theorem neutral_record (w : World) : Neutral w w.record :=
  neutral_of_eq rfl rfl rfl rfl rfl rfl (fun _ h => h) fun h => h.record

/-- Planning's own fields. -/
theorem neutral_planning (w : World) (plan_refinements : Nat) (plan_markdown : String) (complete : Bool)
    (transaction : Option String) :
    Neutral w { w with state := { w.state with
      plan_refinements, plan_markdown
      design_plan_complete := complete, source_transaction := transaction } } :=
  neutral_of_eq rfl rfl rfl rfl rfl rfl (fun _ h => h) fun h => { h with }

/-- A request, of jobs that were started for it. -/
theorem neutral_request (w : World) (planning_request : Option Checkpoint)
    (habout : ∀ reason, w.state.about reason → State.about reason { w.state with planning_request })
    (hstepped : Stepped w.state → Stepped { w.state with planning_request }) :
    Neutral w { w with state := { w.state with planning_request } } :=
  neutral_of_eq rfl rfl rfl rfl rfl rfl habout fun h => { h with stepped := hstepped h.stepped }

theorem neutral_flags (w : World) (results : Dict Nat String) (stopping cancelled : Bool) :
    Neutral w { w with results, stopping, cancelled } :=
  neutral_of_eq rfl rfl rfl rfl rfl rfl (fun _ h => h) fun h => { h with }

theorem neutral_setDag (w : World) {dag : Dag} (hdag : Refuted w.certified dag) : Neutral w (w.setDag dag) :=
  neutral_of_eq rfl rfl rfl rfl rfl rfl (fun _ h => h) fun h => h.setDag hdag

theorem neutral_updateNode (w : World) (n : NodeRef) {f : Node → Node}
    (hf : ∀ node, (f node).status = .disproved → node.status = .disproved) (hid : ∀ node, (f node).id = node.id) :
    Neutral w (w.updateNode n f) :=
  neutral_of_eq rfl rfl rfl rfl rfl rfl (fun _ h => h) fun h => h.update n.graph ((h.graphs n.graph).update hf hid)

theorem neutral_updateDag (w : World) {f : Node → Node}
    (hf : ∀ node, (f node).status = .disproved → node.status = .disproved ∧ (f node).id = node.id) :
    Neutral w (w.updateDag fun dag => { dag with nodes := dag.nodes.map f }) :=
  neutral_of_eq rfl rfl rfl rfl rfl rfl (fun _ h => h) fun h => h.update w.graph ((h.graphs w.graph).map hf)

theorem neutral_updateJournal (w : World) (id : String) {f : Journal → Journal} (hf : ∀ rec, (f rec).core = rec.core) :
    Neutral w { w with state := w.state.updateJournal id f } where
  account := account_updateJournal hf id w.state
  journals key := by
    show ((w.state.updateJournal id f).recovery_in_flight.get? key).map _ = _
    rw [get?_updateJournal, Option.map_map, World.journal]
    refine congrArg (Option.map · _) (funext fun rec => ?_)
    show (if key = id then f rec else rec).core = rec.core
    split
    · exact hf rec
    · rfl
  jobs ref job h := ⟨job, h, rfl⟩
  proofs := rfl
  disk := rfl
  checked := rfl
  request _ h := h
  truth h := { h with }

theorem neutral_open_job (w : World) (role : Role) (purpose : Purpose) (node_id : String) (revision : Nat) (resumed : Option Nat) :
    Neutral w { w with state := w.state.open_job role purpose node_id revision resumed } := by
  have hjobs : KeptJobs w.state.jobs (w.state.open_job role purpose node_id revision resumed).jobs := by
    unfold State.open_job
    split
    · exact keptJobs_modify _ _ fun _ => rfl
    · exact keptJobs_append _ _
  have hrequest : (w.state.open_job role purpose node_id revision resumed).planning_request = w.state.planning_request := by
    unfold State.open_job
    split <;> rfl
  refine ⟨account_open_job role purpose node_id revision resumed w.state, fun id => ?_, hjobs, ?_, rfl, rfl,
    fun reason h checkpoint hcheckpoint => h checkpoint (hrequest ▸ hcheckpoint), fun h => ?_⟩
  · show ((w.state.open_job role purpose node_id revision resumed).recovery_in_flight.get? id).map _ = _
    unfold State.open_job
    split <;> rfl
  · show (w.state.open_job role purpose node_id revision resumed).negation_proofs = _
    unfold State.open_job
    split <;> rfl
  · have hstepped : Stepped (w.state.open_job role purpose node_id revision resumed) :=
      h.stepped.of_jobs hrequest hjobs
    revert hstepped
    unfold State.open_job
    split <;> exact fun hstepped => { h with stepped := hstepped }

/-- A job that is not accounted for. -/
theorem neutral_updateJob (w : World) {ref : Nat} {f : Job → Job}
    (hdecided : ∀ job : Job, w.state.jobs[ref]? = some job → (f job).decided = job.decided)
    (hrefuted : ∀ id (job : Job), w.state.jobs[ref]? = some job → (f job).refuted id = job.refuted id)
    (hsame : ∀ job, (f job).key = job.key) : Neutral w { w with state := w.state.updateJob ref f } where
  account := account_updateJob hdecided hrefuted
  journals _ := rfl
  jobs := keptJobs_modify _ ref hsame
  proofs := rfl
  disk := rfl
  checked := rfl
  request _ h := h
  truth h := { h with stepped := h.stepped.of_jobs rfl (keptJobs_modify _ ref hsame) }

/-! ### Closed assertions -/

structure Framed (P : World → Prop) : Prop where
  stable : Prog.Stable Others P
  neutral : ∀ w w', Neutral w w' → P w → P w'

structure Closed (P : World → Prop) : Prop extends Framed P where
  truth : ∀ w, P w → Truth w

/-- A request may be opened. -/
def Seedable (P : World → Prop) : Prop :=
  ∀ w (checkpoint : Checkpoint), checkpoint.fresh → P w →
    P { w with state := { w.state with planning_request := w.state.planning_request.or (some checkpoint) } }

theorem Framed.and {P Q : World → Prop} (hP : Framed P) (hQ : Framed Q) : Framed fun w => P w ∧ Q w :=
  ⟨hP.stable.and hQ.stable, fun w w' h hw => ⟨hP.neutral w w' h hw.1, hQ.neutral w w' h hw.2⟩⟩

theorem Closed.and {P Q : World → Prop} (hP : Closed P) (hQ : Framed Q) : Closed fun w => P w ∧ Q w :=
  { hP.toFramed.and hQ with truth := fun w hw => hP.truth w hw.1 }

/-- A job that was started for this. -/
def Owned (key : JobKey) (ref : Nat) (w : World) : Prop := Started w.state.jobs ref key

theorem framed_owned (key : JobKey) (ref : Nat) : Framed (Owned key ref) where
  stable := stable_state (fun state => Started state.jobs ref key) fun _ _ h => h
  neutral _ _ h hw := Started.mono hw h.jobs

/-- A job whose end is not accounted for. -/
def Spare (ref : Nat) (w : World) : Prop := ∃ key : JobKey, key.accounted = false ∧ Started w.state.jobs ref key

theorem framed_spare (ref : Nat) : Framed (Spare ref) where
  stable := stable_state (fun state => ∃ key : JobKey, key.accounted = false ∧ Started state.jobs ref key) fun _ _ h => h
  neutral _ _ h hw := by
    obtain ⟨key, hkey, hstarted⟩ := hw
    exact ⟨key, hkey, hstarted.mono h.jobs⟩

/-- The questions that are out have such jobs. -/
def Asked (questions : List (Nat × Option Session)) (w : World) : Prop :=
  ∀ question ∈ questions, question.2.isSome = true → Spare question.1 w

theorem framed_asked (questions : List (Nat × Option Session)) : Framed (Asked questions) where
  stable w w' hw h question hmem hout := (framed_spare question.1).stable w w' (hw question hmem hout) h
  neutral w w' h hw question hmem hout := (framed_spare question.1).neutral w w' h (hw question hmem hout)

/-- The request is about this, while there is one. -/
theorem framed_about (reason : String) : Framed fun w => w.state.about reason where
  stable := stable_state (fun state => state.about reason) fun _ _ h => h
  neutral _ _ h hw := h.request reason hw

/-- A journal in a known stage. -/
def Journaled (id : String) (p : Option (Stage × Bool × Option String) → Prop) (w : World) : Prop :=
  p ((w.journal id).map Journal.core)

theorem framed_journaled (id : String) (p : Option (Stage × Bool × Option String) → Prop) : Framed (Journaled id p) where
  stable := stable_state (fun state => p ((state.recovery_in_flight.get? id).map Journal.core)) fun _ _ h => h
  neutral _ _ h hw := (congrArg p (h.journals id)).mpr hw

theorem framed_proof (id : String) (p : Option String → Prop) : Framed fun w => p (w.state.negation_proofs.get? id) where
  stable := stable_state (fun state => p (state.negation_proofs.get? id)) fun _ _ h => h
  neutral _ _ h hw := (congrArg (fun proofs => p (proofs.get? id)) h.proofs).mpr hw

theorem framed_certified (id : String) : Framed fun w => w.certified id where
  stable := stable_of_other (fun _ h => h) (fun _ h => h) fun _ h => h
  neutral _ w' h hw := by
    show _ ∈ w'.checked
    rw [h.checked]
    exact hw

/-- What was checked stays checked. -/
theorem framed_refuted (dag : Dag) : Framed fun w => Refuted w.certified dag where
  stable := stable_of_other (fun _ h => h) (fun _ h => h) fun _ h => h
  neutral w w' h hw := by
    intro node hnode hstatus
    show _ ∈ w'.checked
    rw [h.checked]
    exact hw node hnode hstatus

end LeanFlow.Recovery
