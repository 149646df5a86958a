import LeanFlow.Recovery.Settled

/-! What holds over the lives of a controller.

Between two operations the state is sound, at any point of a life it is passing, and what a new life reads
is sound again with one more life. -/
namespace LeanFlow.Recovery
open General Goals Jobs

variable {cap : Option Nat} {r : Nat}

/-! ### Operations -/

/-- The rest of the controller proves and accepts. -/
theorem neutral_work {w : World} (hw : Truth w) (work : Work) : Neutral w (w.work work) := by
  cases work with
  | graph dag =>
    show Neutral w (if _ then w.setDag dag else w)
    split
    · rename_i hall
      refine neutral_setDag w fun node hnode hstatus => ?_
      have hold := (of_decide_eq_true (List.all_eq_true.mp hall node hnode)).resolve_left (not_not.mpr hstatus)
      obtain ⟨node', hnode', hold⟩ := (Option.any_eq_true _ _).mp hold
      rw [← Dag.id_of_by_id hnode']
      exact hw.graphs w.graph node' (Dag.mem_of_by_id hnode') (of_decide_eq_true hold)
    · exact neutral_of_eq rfl rfl rfl rfl rfl rfl (fun _ h => h) fun h => h
  | attempt node_id =>
    refine ⟨?_, fun _ => rfl, keptJobs_append _ _, rfl, rfl, rfl, (fun _ h => h), fun h => { h with
      stepped := h.stepped.of_jobs rfl (keptJobs_append _ _) }⟩
    have hspare (p : Job → Bool) (hp : ∀ job, finished job.status = false → p job = false) (jobs : List Job) (revision : Nat) :
        (jobs ++ [({ role := .prover, purpose := .attempt, node_id, node_revision := revision, status := .running } : Job)]).countP p =
          jobs.countP p := by
      rw [List.countP_append, List.countP_singleton, hp _ rfl]
      rfl
    simp only [State.account, World.work, Account.mk.injEq, true_and, and_true]
    exact ⟨hspare _ (fun job hjob => by rw [Job.decided, hjob, Bool.and_false]) _ _,
      funext fun key => hspare _ (fun job hjob => by rw [Job.refuted, hjob, Bool.and_false]) _ _⟩
  | settle ref status =>
    refine neutral_updateJob w (fun job _ => ?_) (fun id job _ => ?_) fun job => ?_
    · split
      · simp only [Job.decided, ‹job.role = .prover›, reduceCtorEq, decide_false, Bool.false_and]
      · rfl
    · split
      · simp only [Job.refuted, ‹job.role = .prover›, reduceCtorEq, decide_false, Bool.false_and]
      · rfl
    · split <;> rfl
  | transaction id => exact neutral_planning w ..
  | guidance text => exact neutral_planning w ..

theorem stays_restore_legacy_stop (n : NodeRef) : Stays cap r (restore_legacy_stop n) := by
  refine Stays.bind (.of_keeps closed_sound.get) fun w => Prog.Outline.ite (fun _ => Prog.Outline.ite (fun _ => stays_enqueue n)
    fun _ => ?_) fun _ => Stays.of_keeps (closed_sound.ret ())
  refine Prog.Outline.bind others_refl (uncharge fun _ => ⟨rfl, Or.inr rfl⟩) fun _ =>
    .bind others_refl (uncharge_at uncharged fun _ h => ⟨h _ rfl, Or.inl rfl⟩) fun _ =>
    stays_persist.mono (fun _ h => h.1) (fun _ _ h => h) fun _ _ h => h

variable (S : Setup)

theorem Closed.plan_design {P : World → Prop} (hP : Closed P) (hseed : Seedable P) (reason : String) (design : Bool) (turn : Planning) :
    Prog.Keeps Others P (Recovery.plan_design S reason design turn) :=
  keeps_bind (hP.when (hP.seed_checkpoint hseed fun _ => ⟨rfl, rfl⟩)) fun _ =>
    keeps_bind (hP.research_plan S hseed reason none false turn) fun _ =>
    hP.when (hP.assign fun _ => rfl)

theorem stays_perform (hconfig : Within cap S.config) (operation : Operation) : Stays cap r (perform S operation) := by
  cases operation with
  | recover id pending turns => exact .bind (.of_keeps closed_sound.get) fun w => stays_recover S hconfig (w.ref id) pending turns
  | enqueue id => exact .bind (.of_keeps closed_sound.get) fun w => stays_enqueue (w.ref id)
  | dismiss id => exact stays_dismiss id
  | plan reason design turn => exact .of_keeps (closed_sound.plan_design S seedable_sound reason design turn)
  | legacy id => exact .bind (.of_keeps closed_sound.get) fun w => stays_restore_legacy_stop (w.ref id)
  | work work => exact .of_keeps (closed_sound.modify fun w hw => neutral_work hw.truth work)
  | persist => exact stays_persist

/-! ### Lives -/

/-- Wherever a life has got to. -/
theorem Sound.drive {life : Life} (hlife : Within cap life.config) {w w' : World} (hw : Sound cap r 0 0 w) {x : Controller Unit}
    (hrun : Prog.drive other life.moves (life.program S, w) = some (x, w')) : Passing cap r w' := by
  have hstays : Stays cap r (life.program S) :=
    Stays.forM (fun operation => stays_perform { S with config := life.config } hlife operation) _
  exact ((hstays w hw).drive others_refl others_trans others_of_other hrun).inv others_refl

theorem restarted_same (dag : Dag) (job : Job) : (job.restarted dag).key = job.key := by
  unfold Job.restarted
  split
  · dsimp only
    split_ifs <;> rfl
  · rfl

/-- What was written is sound, with one more life. -/
theorem Passing.resume {w : World} (h : Passing cap r w) : Sound cap (r + 1) 0 0 w.resume where
  live := by
    show Books cap 0 0 (r + 1) (State.account { w.disk with jobs := w.disk.jobs.map (Job.restarted w.disk.dag) })
    rw [account_restarted]
    exact h.durable.books
  durable := ⟨h.durable.books.mono (by omega) (by omega), h.durable.entries.trans (Nat.le_succ _),
    h.durable.turns.trans (Nat.le_succ _)⟩
  truth :=
    { h.truth.setDag h.truth.durable with
      live := h.truth.durable
      disproof := h.truth.disproof_durable
      guided := h.truth.guided_durable
      stepped := h.truth.stepped_durable.of_jobs rfl (keptJobs_map _ (restarted_same _)) }

theorem Sound.history {life : Life} {lives : List Life} (hlives : ∀ l ∈ life :: lives, Within cap l.config) {w w' : World}
    (hw : Sound cap r 0 0 w) (hrun : history S life lives w = some w') : Passing cap (r + lives.length) w' := by
  induction lives generalizing life r w with
  | nil =>
    obtain ⟨⟨x, w''⟩, hdrive, rfl⟩ := Option.map_eq_some_iff.mp hrun
    exact hw.drive S (hlives life (List.mem_cons_self ..)) hdrive
  | cons next lives ih =>
    obtain ⟨⟨x, w''⟩, hdrive, hrun⟩ := Option.bind_eq_some_iff.mp hrun
    have hpassing := hw.drive S (hlives life (List.mem_cons_self ..)) hdrive
    have hnext := ih (fun l hl => hlives l (List.mem_cons_of_mem _ hl)) hpassing.resume hrun
    rw [List.length_cons, Nat.add_comm lives.length, ← Nat.add_assoc]
    exact hnext

theorem sound_fresh {dag : Dag} (hdag : ∀ node ∈ dag.nodes, node.status ≠ .disproved) : Sound cap 0 0 0 (World.fresh dag) where
  live := books_fresh dag
  durable := (books_fresh dag).tolerable
  truth := ⟨fun _ node hnode h => absurd h (hdag node hnode), fun node hnode h => absurd h (hdag node hnode),
    fun node hnode h => absurd h (hdag node hnode), (fun _ h => by cases h), (fun _ h => by cases h),
    (fun _ _ h => by cases h), (fun _ _ h => by cases h), (fun _ h => by cases h), fun _ h => by cases h⟩

/-! ### Results -/

section Results
variable {dag : Dag} {life : Life} {lives : List Life} {w : World}

/-- **Every decision is charged.** Over any lives, cut off anywhere, decisions and the orchestrator's turns exceed
the charges by no more than the lives that were cut off, and the charges stay within their limit. -/
theorem decisions_charged (hdag : ∀ node ∈ dag.nodes, node.status ≠ .disproved)
    (hlives : ∀ l ∈ life :: lives, Within cap l.config) (hrun : history S life lives (World.fresh dag) = some w) :
    ∀ state ∈ [w.state, w.disk],
      state.recovery_decisions.length ≤ state.decompositions + lives.length ∧
      state.jobs.countP Job.decided ≤ state.decompositions + lives.length ∧
      ∀ m, cap = some m → state.decompositions ≤ m := by
  have hpassing := (sound_fresh hdag).history S hlives hrun
  rw [Nat.zero_add] at hpassing
  have hstate {state : State} (h : Tolerable cap lives.length state.account) :
      state.recovery_decisions.length ≤ state.decompositions + lives.length ∧
        state.jobs.countP Job.decided ≤ state.decompositions + lives.length ∧ ∀ m, cap = some m → state.decompositions ≤ m :=
    ⟨h.entries, h.turns, h.books.capped⟩
  intro state hmem
  rcases List.mem_pair.mp hmem with rfl | rfl
  · exact hstate hpassing.live
  · exact hstate hpassing.durable

/-- **A refutation is bought only when it was decided**, and only once, whatever is cut off. -/
theorem refutations_decided (hdag : ∀ node ∈ dag.nodes, node.status ≠ .disproved)
    (hrun : history S life lives (World.fresh dag) = some w) :
    ∀ state ∈ [w.state, w.disk], ∀ id,
      state.jobs.countP (Job.refuted id) ≤ state.recovery_decisions.countP (Record.negates id) := by
  have hpassing : Passing none (0 + lives.length) w := (sound_fresh hdag).history S (fun _ _ _ hm => by cases hm) hrun
  have hstate {state : State} (h : Tolerable none (0 + lives.length) state.account) (id : String) :
      state.jobs.countP (Job.refuted id) ≤ state.recovery_decisions.countP (Record.negates id) :=
    (Nat.le_add_right ..).trans (h.books.refutations id)
  intro state hmem
  rcases List.mem_pair.mp hmem with rfl | rfl
  · exact hstate hpassing.live
  · exact hstate hpassing.durable

/-- A session of recovery that ran to its end. -/
def Job.recovered (job : Job) : Bool := job.decided || (job.role = .negation && finished job.status)

/-- **The campaign's budget bounds the whole loop**: there is no limit for each obligation, and yet the sessions that
recovery bought, for all obligations, are at most two for each charge and each life that was cut off. -/
theorem recovery_bounded {m : Nat} (hdag : ∀ node ∈ dag.nodes, node.status ≠ .disproved)
    (hlives : ∀ l ∈ life :: lives, Within (some m) l.config) (hrun : history S life lives (World.fresh dag) = some w) :
    ∀ state ∈ [w.state, w.disk], state.jobs.countP Job.recovered ≤ 2 * (m + lives.length) := by
  have hpassing := (sound_fresh hdag).history S hlives hrun
  rw [Nat.zero_add] at hpassing
  have hstate {state : State} (h : Tolerable (some m) lives.length state.account) :
      state.jobs.countP Job.recovered ≤ 2 * (m + lives.length) := by
    have hpaid : state.decompositions ≤ m := h.books.capped m rfl
    have hturns : state.jobs.countP Job.decided ≤ state.decompositions + lives.length := h.turns
    have hentries : state.recovery_decisions.length ≤ state.decompositions + lives.length := h.entries
    have hrefuted : state.jobs.countP (fun job => job.role = .negation && finished job.status) ≤
        state.recovery_decisions.countP fun record => record.decision.action = "negate" := by
      refine countP_le_of_keys Job.node_id Record.node_id fun id => ?_
      refine le_trans (le_of_eq (List.countP_congr fun job _ => ?_)) ((Nat.le_add_right ..).trans (h.books.refutations id))
      rw [Job.refuted, Bool.and_left_comm, Bool.and_assoc]
    have hnegated : state.recovery_decisions.countP (fun record => record.decision.action = "negate") ≤
        state.recovery_decisions.length := List.countP_le_length
    have hboth : state.jobs.countP Job.recovered ≤ state.jobs.countP Job.decided +
        state.jobs.countP fun job => job.role = .negation && finished job.status := countP_or_le ..
    omega
  intro state hmem
  rcases List.mem_pair.mp hmem with rfl | rfl
  · exact hstate hpassing.live
  · exact hstate hpassing.durable

/-- **What is called refuted was checked**: nodes of the graph and of the durable graph, and the obligation that
ended the run. -/
theorem refutations_checked (hdag : ∀ node ∈ dag.nodes, node.status ≠ .disproved)
    (hrun : history S life lives (World.fresh dag) = some w) :
    (∀ node ∈ w.dag.nodes ++ w.disk.dag.nodes, node.status = .disproved → (node.id, true) ∈ w.checked) ∧
      ∀ id, w.state.disproof = some id ∨ w.disk.disproof = some id → (id, true) ∈ w.checked := by
  have hpassing : Passing none (0 + lives.length) w := (sound_fresh hdag).history S (fun _ _ _ hm => by cases hm) hrun
  have htruth := hpassing.truth
  refine ⟨fun node hnode hstatus => ?_, fun id hid => hid.elim (htruth.disproof id) (htruth.disproof_durable id)⟩
  rcases List.mem_append.mp hnode with hnode | hnode
  · exact htruth.graphs w.graph node hnode hstatus
  · exact htruth.durable node hnode hstatus

/-- **What a prover is told was decided**: whatever is cut off, guidance names a recorded decision of its obligation
and repeats it. -/
theorem guidance_decided (hdag : ∀ node ∈ dag.nodes, node.status ≠ .disproved)
    (hrun : history S life lives (World.fresh dag) = some w) : ∀ state ∈ [w.state, w.disk], Guided state := by
  have hpassing : Passing none (0 + lives.length) w := (sound_fresh hdag).history S (fun _ _ _ hm => by cases hm) hrun
  intro state hmem
  rcases List.mem_pair.mp hmem with rfl | rfl
  · exact hpassing.truth.guided
  · exact hpassing.truth.guided_durable

end Results

/-! ### A run -/

def sampleSetup : Setup where
  classes := .ascii
  repr _ := ""
  dumps _ := ""
  json_report reply := [("action", .str reply)]
  fingerprint _ _ _ := ""
  config := { max_nodes := 4, max_decompositions := some 1 }

def sampleDag : Dag := { nodes := [{ id := "a", name := "a", file := "A.lean" }], roots := ["a"] }

/-- The process is gone when the decision is recorded and its reply is still in the journal. -/
def sampleLife : Life where
  config := { max_nodes := 4, max_decompositions := some 1 }
  operations := [.recover "a" false [{ decision := { reply := "negate" } }, { refutation := { proof := "exact h" } }]]
  moves := ("aaaafafaaaaaafafaaafafaafafaffafaaafaa".toList.map fun c => if c = 'a' then .act else .pick false) ++ [.other .publish]

theorem sample_within (moves : List (Prog.Move Other)) (l : Life) (hl : l ∈ [sampleLife, { sampleLife with moves }]) :
    Within (some 1) l.config := by
  intro m hm
  rcases List.mem_pair.mp hl with rfl | rfl
  · exact ⟨1, rfl, le_of_eq (Option.some.inj hm)⟩
  · exact ⟨1, rfl, le_of_eq (Option.some.inj hm)⟩

theorem sample_unrefuted : ∀ node ∈ sampleDag.nodes, node.status ≠ .disproved := by decide

/-- The next process decides once more, and the obligation is refuted. -/
theorem sample_run : ∃ (moves : List (Prog.Move Other)) (w : World),
    history sampleSetup sampleLife [{ sampleLife with moves }] (World.fresh sampleDag) = some w ∧
      (w.state.recovery_decisions.length = 2 ∧ w.state.decompositions = 1) ∧
      w.state.jobs.countP (Job.refuted "a") = 1 ∧ (w.dag.nodes.any (·.status = .disproved)) = true ∧
      (w.state.prover_recovery_guidance.get? "a").isSome = true := by
  have hfirst : (Prog.drive other sampleLife.moves (sampleLife.program sampleSetup, World.fresh sampleDag)).any (fun c =>
      let w := (Prog.calm (sampleLife.program sampleSetup) c.2.resume).2
      decide ((w.state.recovery_decisions.length = 2 ∧ w.state.decompositions = 1) ∧
        w.state.jobs.countP (Job.refuted "a") = 1 ∧ (w.dag.nodes.any (·.status = .disproved)) = true ∧
        (w.state.prover_recovery_guidance.get? "a").isSome = true)) = true := by decide +kernel
  obtain ⟨c, hdrive, hfacts⟩ := (Option.any_eq_true _ _).mp hfirst
  obtain ⟨moves, hcalm⟩ := Prog.exists_calm other (sampleLife.program sampleSetup) c.2.resume
  refine ⟨moves, (Prog.calm (sampleLife.program sampleSetup) c.2.resume).2, ?_, of_decide_eq_true hfacts⟩
  show (Prog.drive other sampleLife.moves (sampleLife.program sampleSetup, World.fresh sampleDag)).bind _ = _
  rw [hdrive]
  show (Prog.drive other moves (sampleLife.program sampleSetup, c.2.resume)).map Prod.snd = _
  rw [hcalm]
  rfl

/-- The balance is exact: two decisions, one charge and one life that was cut off. -/
theorem sample_charged : ∃ (moves : List (Prog.Move Other)) (w : World),
    history sampleSetup sampleLife [{ sampleLife with moves }] (World.fresh sampleDag) = some w ∧
      w.state.recovery_decisions.length = w.state.decompositions + 1 ∧
      ∀ state ∈ [w.state, w.disk], state.recovery_decisions.length ≤ state.decompositions + 1 ∧
        state.jobs.countP Job.decided ≤ state.decompositions + 1 ∧ ∀ m, some 1 = some m → state.decompositions ≤ m := by
  obtain ⟨moves, w, hrun, ⟨hdecisions, hcharges⟩, -⟩ := sample_run
  refine ⟨moves, w, hrun, ?_, decisions_charged sampleSetup sample_unrefuted (sample_within moves) hrun⟩
  rw [hdecisions, hcharges]

theorem sample_decided : ∃ (moves : List (Prog.Move Other)) (w : World),
    history sampleSetup sampleLife [{ sampleLife with moves }] (World.fresh sampleDag) = some w ∧
      w.state.jobs.countP (Job.refuted "a") = 1 ∧
      ∀ state ∈ [w.state, w.disk], ∀ id,
        state.jobs.countP (Job.refuted id) ≤ state.recovery_decisions.countP (Record.negates id) := by
  obtain ⟨moves, w, hrun, -, hrefuted, -⟩ := sample_run
  exact ⟨moves, w, hrun, hrefuted, refutations_decided sampleSetup sample_unrefuted hrun⟩

theorem sample_bounded : ∃ (moves : List (Prog.Move Other)) (w : World),
    history sampleSetup sampleLife [{ sampleLife with moves }] (World.fresh sampleDag) = some w ∧
      w.state.jobs.countP (Job.refuted "a") = 1 ∧
      ∀ state ∈ [w.state, w.disk], state.jobs.countP Job.recovered ≤ 2 * (1 + 1) := by
  obtain ⟨moves, w, hrun, -, hrefuted, -⟩ := sample_run
  exact ⟨moves, w, hrun, hrefuted, recovery_bounded sampleSetup sample_unrefuted (sample_within moves) hrun⟩

theorem sample_checked : ∃ (moves : List (Prog.Move Other)) (w : World),
    history sampleSetup sampleLife [{ sampleLife with moves }] (World.fresh sampleDag) = some w ∧
      (w.dag.nodes.any (·.status = .disproved)) = true ∧
      (∀ node ∈ w.dag.nodes ++ w.disk.dag.nodes, node.status = .disproved → (node.id, true) ∈ w.checked) ∧
      ∀ id, w.state.disproof = some id ∨ w.disk.disproof = some id → (id, true) ∈ w.checked := by
  obtain ⟨moves, w, hrun, -, -, hdisproved, -⟩ := sample_run
  exact ⟨moves, w, hrun, hdisproved, refutations_checked sampleSetup sample_unrefuted hrun⟩

theorem sample_guided : ∃ (moves : List (Prog.Move Other)) (w : World),
    history sampleSetup sampleLife [{ sampleLife with moves }] (World.fresh sampleDag) = some w ∧
      (w.state.prover_recovery_guidance.get? "a").isSome = true ∧ ∀ state ∈ [w.state, w.disk], Guided state := by
  obtain ⟨moves, w, hrun, -, -, -, hguidance⟩ := sample_run
  exact ⟨moves, w, hrun, hguidance, guidance_decided sampleSetup sample_unrefuted hrun⟩

end LeanFlow.Recovery
