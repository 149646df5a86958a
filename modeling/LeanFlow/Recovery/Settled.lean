import LeanFlow.Recovery.Decided

/-! Refutations, planning again, and the loop.

The outcome of a refutation is kept before its session has ended and dropped when its journal has left the
stage; only an outcome that was checked makes a node refuted. -/
namespace LeanFlow.Recovery
open General Goals Jobs Source

variable {cap : Option Nat} {r decision turn : Nat} {id : String}

/-! ### Refutations -/

def negating (core : Option (Stage × Bool × Option String)) : Prop := ∃ rest, core = some (.negate, rest)

/-- The outcome may be dropped. -/
def settled (core : Option (Stage × Bool × Option String)) : Prop := ∀ c, core = some c → c.1 ≠ .negate

theorem Refuted.imp {p q : String → Prop} {dag : Dag} (h : Refuted p dag) (hpq : ∀ id, p id → q id) : Refuted q dag :=
  fun node hnode hstatus => hpq node.id (h node hnode hstatus)

/-- A check forgets none of the others. -/
theorem Truth.check {w : World} (h : Truth w) (check : String × Bool) : Truth { w with checked := w.checked ++ [check] } where
  graphs g := (h.graphs g).imp fun _ => List.mem_append_left _
  live := h.live.imp fun _ => List.mem_append_left _
  durable := h.durable.imp fun _ => List.mem_append_left _
  disproof id hid := List.mem_append_left _ (h.disproof id hid)
  disproof_durable id hid := List.mem_append_left _ (h.disproof_durable id hid)
  guided := h.guided
  guided_durable := h.guided_durable
  stepped := h.stepped
  stepped_durable := h.stepped_durable

/-- What was checked is called refuted. -/
theorem Refuted.disprove {p : String → Prop} {dag : Dag} (h : Refuted p dag) {id : String} (hid : p id) :
    Refuted p (dag.update id fun node => { node with status := .disproved }) := by
  intro node hnode hstatus
  obtain ⟨node, hmem, rfl⟩ := List.mem_map.mp hnode
  split at hstatus
  · rename_i heq
    rw [if_pos heq]
    exact heq ▸ hid
  · rename_i hne
    rw [if_neg hne]
    exact h node hmem hstatus

/-- A refutation that was decided and has no outcome may be bought. -/
theorem framed_credit (id : String) : Framed fun w => w.state.account.bought id + 1 ≤ w.state.account.allowed id where
  stable := stable_state (fun state => state.account.bought id + 1 ≤ state.account.allowed id) fun _ _ h => h
  neutral _ _ h hw := h.account ▸ hw

theorem Sound.credit {w : World} (h : Sound cap r decision turn w) (hnegating : Journaled id negating w)
    (hnone : w.state.negation_proofs.get? id = none) : w.state.account.bought id + 1 ≤ w.state.account.allowed id := by
  obtain ⟨rest, hcore⟩ := hnegating
  obtain ⟨rec, hrec, hcore⟩ := Option.map_eq_some_iff.mp hcore
  have hbought := h.live.refutations id
  have hunsettled : w.state.account.unsettled id = true := by
    show ((w.journal id).any Journal.refuting && (w.state.negation_proofs.get? id).isNone) = true
    rw [hrec, hnone, Option.any_some, Journal.refuting, (Prod.mk.inj hcore).1]
    rfl
  rw [hunsettled] at hbought
  exact hbought

section Refute
variable (C : CharClass) {E : Raised → World → Prop}

/-- Keeping an outcome leaves the stage as it is. -/
theorem keep_proof_spec (n : NodeRef) (proof : String) :
    Prog.Outline Others (Passing cap r) (fun w => Sound cap r 0 0 w ∧ Journaled n.id negating w) (keep_proof n.id proof)
      (fun _ w => Sound cap r 0 0 w ∧ Journaled n.id negating w) E :=
  .modify (kept_journaled n.id negating) (kept_journaled n.id negating) fun _ h =>
    ⟨h.1.account (h.1.live.keep_proof n.id proof) (same_books ..), h.2⟩

theorem drop_proof_spec : Prog.Outline Others (Passing cap r) (fun w => Sound cap r 0 0 w ∧ Journaled id settled w) (drop_proof id)
    (fun _ => Sound cap r 0 0) E := by
  refine .modify (kept_journaled id settled) ⟨closed_sound.stable, fun _ h => h.passing⟩ fun w h =>
    h.1.account (h.1.live.drop_proof ?_) (same_books ..)
  cases hrec : w.state.recovery_in_flight.get? id with
  | none => rfl
  | some rec => exact decide_eq_false (h.2 rec.core (congrArg (Option.map Journal.core) hrec))

/-- A proof counts when its check has accepted. -/
theorem certify_negation_spec (n : NodeRef) (proof : String) (check : Check) :
    Prog.Outline Others (Passing cap r) (fun w => Sound cap r 0 0 w ∧ Journaled n.id negating w) (certify_negation C n proof check)
      (fun certified w => (Sound cap r 0 0 w ∧ Journaled n.id negating w) ∧ (certified = true → w.certified n.id))
      fun _ => Sound cap r 0 0 := by
  have hstage := closed_journaled cap r 0 0 n.id negating
  unfold certify_negation
  split
  · exact .bind others_refl (keep_proof_spec n "") fun _ => .bind others_refl (journaled_of_keeps hstage.persist) fun _ =>
      .ret (kept_journaled n.id negating) fun w h => ⟨h, fun hfalse => absurd hfalse Bool.false_ne_true⟩
  · refine .bind others_refl (journaled_of_keeps (hstage.fault _)) fun _ => .bind others_refl (keep_proof_spec n proof) fun _ =>
      .bind others_refl (journaled_of_keeps hstage.persist) fun _ => .bind others_refl (journaled_of_keeps (hstage.fault _)) fun _ =>
      .bind others_refl (journaled_of_keeps (hstage.fault _)) fun _ => .ite (fun _ => ?_) fun _ => ?_
    · exact .bind others_refl (journaled_of_keeps hstage.ensure_active) fun _ => .raise (kept_journaled n.id negating) fun _ h => h.1
    · have hchecked := hstage.and (framed_certified n.id)
      refine .bind others_refl (journaled_of_keeps (hstage.fault _)) fun _ => ?_
      let answered (w : World) : Prop :=
        (Sound cap r 0 0 w ∧ Journaled n.id negating w) ∧ (decide (check = .accepted) = true → w.certified n.id)
      have hanswered : Prog.Kept Others (Passing cap r) answered :=
        ⟨fun w w' h hw => ⟨hstage.stable w w' h.1 hw, fun hc => (framed_certified n.id).stable w w' (h.2 hc) hw⟩,
          fun _ h => h.1.1.passing⟩
      refine .bind (Q := fun _ => answered) others_refl (.modify (kept_journaled n.id negating) hanswered fun w h =>
        ⟨⟨⟨h.1.live, h.1.durable, h.1.truth.check _⟩, h.2⟩, fun hc => List.mem_append_right _ ?_⟩) fun _ =>
        .ret hanswered fun _ h => h
      rw [hc]
      exact List.mem_singleton_self _

/-- The end of a session; its outcome is kept unless it is bought again. -/
theorem finish_refutation_spec (n : NodeRef) (ref : Nat) (proof : String) (session : Session) :
    Prog.Outline Others (Passing cap r)
      (fun w => ((Sound cap r 0 0 w ∧ Journaled n.id negating w) ∧ w.state.negation_proofs.get? n.id = none) ∧
        Owned (.node .negation n.id) ref w)
      (do
        when (¬ unfinished_refutation session.status) do keep_proof n.id proof
        finish_job ref session)
      (fun _ w => Sound cap r 0 0 w ∧ Journaled n.id negating w) fun _ => Sound cap r 0 0 := by
  have hafter := closed_journaled cap r 0 0 n.id negating
  have hbefore := (hafter.and (framed_proof n.id (· = none))).and (framed_owned (.node .negation n.id) ref)
  cases hunfinished : unfinished_refutation session.status with
  | true =>
    refine .bind (Q := fun _ w => ((Sound cap r 0 0 w ∧ Journaled n.id negating w) ∧ w.state.negation_proofs.get? n.id = none) ∧
      Owned (.node .negation n.id) ref w) others_refl
      (.ite (fun hnot => absurd rfl (hunfinished ▸ hnot)) fun _ => .ret ⟨hbefore.stable, fun _ h => h.1.1.1.passing⟩ fun _ h => h)
      fun _ => ?_
    refine sound_within (hafter.finish_job ⟨hbefore.stable, fun w h => h.1.1⟩ fun w h => ?_) fun _ h => h.1
    refine ⟨h.1.1.1.account (h.1.1.1.live.finish_unfinished ?_ ref) (same_finished ..), h.1.1.2⟩
    cases hstatus : session.status <;> rw [hstatus] at hunfinished <;> first | rfl | cases hunfinished
  | false =>
    have hkept := ((hafter.and (framed_proof n.id (·.isSome = true))).and (framed_owned (.node .negation n.id) ref)).and (framed_credit n.id)
    refine .bind (Q := fun _ w =>
      (((Sound cap r 0 0 w ∧ Journaled n.id negating w) ∧ (w.state.negation_proofs.get? n.id).isSome = true) ∧
      Owned (.node .negation n.id) ref w) ∧ w.state.account.bought n.id + 1 ≤ w.state.account.allowed n.id) others_refl
      (.ite (fun _ => ?_) fun hnot => absurd (hunfinished ▸ Bool.false_ne_true) hnot) fun _ => ?_
    · refine .modify ⟨hbefore.stable, fun _ h => h.1.1.1.passing⟩ ⟨hkept.stable, fun _ h => h.1.1.1.1.passing⟩ fun w h => ?_
      have hsound := h.1.1.1.account (h.1.1.1.live.keep_proof n.id proof) (same_books ..)
      refine ⟨⟨⟨⟨hsound, h.1.1.2⟩, ?_⟩, h.2⟩, h.1.1.1.credit h.1.1.2 h.1.2⟩
      show ((w.state.negation_proofs.set n.id proof).get? n.id).isSome = true
      rw [Dict.get?_set_self]
      rfl
    · refine sound_within (hafter.finish_job ⟨hkept.stable, fun w h => h.1.1.1⟩ fun w h => ?_) fun _ h => h.1
      obtain ⟨⟨⟨hstage, hproof⟩, job, hjob, hkey⟩, hcredit⟩ := h
      obtain ⟨hrole, hnode⟩ := Job.node_of_key hkey
      have hbooks := hstage.1.live.finish_refutation hjob hrole hnode hproof hcredit session.status
      exact ⟨hstage.1.account hbooks (same_finished ..), hstage.2⟩

/-- A refutation is bought once. -/
theorem prove_negation_spec (n : NodeRef) (turn : Refutation) :
    Prog.Outline Others (Passing cap r)
      (fun w => (Sound cap r 0 0 w ∧ Journaled n.id negating w) ∧ w.state.negation_proofs.get? n.id = none)
      (prove_negation C n turn)
      (fun certified w => (Sound cap r 0 0 w ∧ Journaled n.id negating w) ∧ (certified = true → w.certified n.id))
      fun _ => Sound cap r 0 0 := by
  have hstage := closed_journaled cap r 0 0 n.id negating
  have hfresh := hstage.and (framed_proof n.id (· = none))
  refine .bind others_refl (sound_within (hfresh.new_job .negation .refutation (some n) turn.session) fun _ h => h.1.1) fun ref => ?_
  have hjob := hfresh.and (framed_owned (.node .negation n.id) ref)
  have hkeeps {x : Controller Unit} (hx : Prog.Keeps Others (fun w => ((Sound cap r 0 0 w ∧ Journaled n.id negating w) ∧
      w.state.negation_proofs.get? n.id = none) ∧ Owned (.node .negation n.id) ref w) x) := sound_within hx fun _ h => h.1.1.1
  refine .bind others_refl (hkeeps (hjob.fault _)) fun _ => ?_
  refine .bind others_refl (hkeeps (hjob.modify fun w _ => neutral_updateJob w (fun _ _ => rfl) (fun _ _ _ => rfl) fun _ => rfl))
    fun _ => ?_
  refine .bind others_refl (hkeeps hjob.persist) fun _ => .bind others_refl (hkeeps (hjob.invoke turn.session)) fun _ =>
    .bind others_refl (hkeeps (hjob.fault _)) fun _ => ?_
  show Prog.Outline _ _ _ ((when _ _ >>= fun _ => finish_job ref turn.session >>= fun _ => _) : Controller Bool) _ _
  rw [← bind_assoc]
  refine .bind others_refl (finish_refutation_spec n ref turn.proof turn.session) fun _ => ?_
  refine .bind others_refl (journaled_of_keeps hstage.ensure_active) fun _ => .bind others_refl (journaled_of_keeps (hstage.fault _))
    fun _ => .ite (fun _ => ?_) fun _ => certify_negation_spec C n turn.proof turn.check
  exact .ret (kept_journaled n.id negating) fun _ h => ⟨h, fun hfalse => absurd hfalse Bool.false_ne_true⟩

theorem attempt_negation_spec (n : NodeRef) (turn : Refutation) :
    Prog.Outline Others (Passing cap r) (fun w => Sound cap r 0 0 w ∧ Journaled n.id negating w) (attempt_negation C n turn)
      (fun certified w => (Sound cap r 0 0 w ∧ Journaled n.id negating w) ∧ (certified = true → w.certified n.id))
      fun _ => Sound cap r 0 0 := by
  let asks (state : State) : Prop := negating ((state.recovery_in_flight.get? n.id).map Journal.core)
  refine .bind others_refl (read_at asks fun _ _ h => h) fun w => ?_
  have hread (w' : World) (h : Sound cap r 0 0 w' ∧ (w.state.Read w'.state ∧ asks w.state)) :
      Sound cap r 0 0 w' ∧ Journaled n.id negating w' := by
    obtain ⟨hsound, ⟨dag, hstate⟩, hasks⟩ := h
    refine ⟨hsound, ?_⟩
    show asks w'.state
    rw [hstate]
    exact hasks
  have hnone : Prog.Outline Others (Passing cap r) (fun w' => Sound cap r 0 0 w' ∧ (w.state.Read w'.state ∧ asks w.state))
      (return false : Controller Bool) (fun certified w =>
        (Sound cap r 0 0 w ∧ Journaled n.id negating w) ∧ (certified = true → w.certified n.id)) fun _ => Sound cap r 0 0 :=
    .ret (kept_at (fun state => w.state.Read state ∧ asks w.state) fun state dag h => ⟨undated_read _ _ dag h.1, h.2⟩) fun w' h =>
      ⟨hread w' h, fun hfalse => absurd hfalse Bool.false_ne_true⟩
  refine .ite (fun _ => hnone) fun _ => ?_
  split
  · exact .ite (fun _ => hnone) fun _ => (certify_negation_spec C n _ turn.check).mono hread (fun _ _ h => h) fun _ _ h => h
  · rename_i hproof
    refine (prove_negation_spec C n turn).mono (fun w' h => ⟨hread w' h, ?_⟩) (fun _ _ h => h) fun _ _ h => h
    obtain ⟨-, ⟨dag, hstate⟩, -⟩ := h
    rw [hstate]
    exact hproof

/-- Only what was checked is called refuted. -/
theorem refuted_spec (n : NodeRef) :
    Prog.Outline Others (Passing cap r) (fun w => (Sound cap r 0 0 w ∧ Journaled n.id negating w) ∧ w.certified n.id) (refuted n)
      (fun _ => Sound cap r 0 0) fun _ => Sound cap r 0 0 := by
  have hstage := closed_journaled cap r 0 0 n.id negating
  have hchecked := hstage.and (framed_certified n.id)
  have hkept : Prog.Kept Others (Passing cap r) fun w => (Sound cap r 0 0 w ∧ Journaled n.id negating w) ∧ w.certified n.id :=
    ⟨hchecked.stable, fun _ h => h.1.1.passing⟩
  refine .bind (Q := fun _ w => (Sound cap r 0 0 w ∧ Journaled n.id negating w) ∧ w.certified n.id) others_refl
    (.get hkept fun w w' h hw => hkept.stable w w' h hw) fun w => ?_
  refine .bind (Q := fun _ w => (Sound cap r 0 0 w ∧ Journaled n.id negating w) ∧ w.certified n.id) others_refl
    (.modify hkept hkept fun w h => ?_) fun _ => ?_
  · exact ⟨⟨{ h.1.1 with truth := h.1.1.truth.update n.graph ((h.1.1.truth.graphs n.graph).disprove h.2) }, h.1.2⟩, h.2⟩
  refine .bind (Q := fun _ w => (Sound cap r 0 0 w ∧ Journaled n.id negating w) ∧ w.certified n.id) others_refl
    (.modify hkept hkept fun w h => hchecked.neutral _ _ (neutral_updateNode w n (fun _ h => h) fun _ => rfl) h) fun _ =>
    .ite (fun _ => ?_) fun _ => ?_
  · refine .bind (Q := fun _ => Sound cap r 0 0) others_refl
      (.modify hkept ⟨closed_sound.stable, fun _ h => h.passing⟩ fun w h => ?_) fun _ => ?_
    · refine { h.1.1 with truth := { h.1.1.truth with disproof := fun id hid => ?_ } }
      exact Option.some.inj hid ▸ h.2
    · exact (Stays.of_keeps (closed_sound.flags fun _ => rfl)).bind fun _ =>
        (Stays.of_keeps (closed_sound.flags fun _ => rfl)).bind fun _ => stays_dismiss n.id
  · have hopen : Prog.Keeps Others (fun w => Sound cap r 0 0 w ∧ Journaled n.id negating w)
        (Prog.modify (World.updateDag (reopen (w.dag.affected n.id) n.id))) := hstage.modify fun w' _ =>
      neutral_updateDag w' fun node hstatus => by
        split at hstatus
        · cases hstatus
        · rw [if_neg ‹_›]
          exact ⟨hstatus, rfl⟩
    refine .bind others_refl ((journaled_of_keeps hopen).mono (fun _ h => h.1) (fun _ _ h => h) fun _ _ h => h) fun _ =>
      .bind others_refl (journaled_of_keeps hstage.get) fun w' => ?_
    refine .bind others_refl (journaled_of_keeps (hstage.update_journal n.id fun _ => rfl)) fun _ =>
      .bind others_refl (journaled_of_keeps (hstage.update_journal n.id fun _ => rfl)) fun _ =>
      .bind others_refl (journaled_of_keeps (hstage.update_journal n.id fun _ => rfl)) fun _ =>
      .bind others_refl (journaled_of_keeps (hstage.update_journal n.id fun _ => rfl)) fun _ => ?_
    refine .bind (Q := fun _ w => Sound cap r 0 0 w ∧ Journaled n.id settled w) others_refl
      (.modify (kept_journaled n.id negating) (kept_journaled n.id settled) fun w h =>
        ⟨h.1.account (h.1.live.to_plan n.id) (same_books ..), fun c hc => ?_⟩) fun _ =>
      .bind others_refl drop_proof_spec fun _ => stays_persist
    obtain ⟨rec, -, rfl⟩ := exists_of_core hc
    exact fun h => by cases h

/-- Without a certificate the next decision is charged anew. -/
theorem unrefuted_spec (n : NodeRef) :
    Prog.Outline Others (Passing cap r) (fun w => Sound cap r 0 0 w ∧ Journaled n.id negating w) (unrefuted n)
      (fun _ => Sound cap r 0 0) fun _ => Sound cap r 0 0 := by
  have huncharged := closed_journaled cap r 0 0 n.id uncharged
  refine .bind others_refl (uncharge_at negating fun rec _ => ⟨rfl, Or.inl rfl⟩) fun _ =>
    .bind others_refl (journaled_of_keeps (huncharged.update_journal n.id fun _ => rfl)) fun _ =>
    .bind others_refl (journaled_of_keeps (huncharged.update_journal n.id fun _ => rfl)) fun _ => ?_
  refine .bind (Q := fun _ w => Sound cap r 0 0 w ∧ Journaled n.id settled w) others_refl
    (.modify (kept_journaled n.id uncharged) (kept_journaled n.id settled) fun w h =>
      ⟨h.1.account (h.1.live.uncharged fun rec hrec => ⟨core_of_get h.2 hrec _ rfl, Or.inr rfl⟩) (same_books ..),
        fun c hc => ?_⟩) fun _ =>
    .bind others_refl drop_proof_spec fun _ => stays_persist
  obtain ⟨rec, -, rfl⟩ := exists_of_core hc
  exact fun h => by cases h

theorem refute_spec (n : NodeRef) (turn : Refutation) :
    Prog.Outline Others (Passing cap r) (fun w => Sound cap r 0 0 w ∧ Journaled n.id negating w) (refute C n turn)
      (fun _ => Sound cap r 0 0) fun _ => Sound cap r 0 0 := by
  have hstage := closed_journaled cap r 0 0 n.id negating
  refine .bind others_refl (journaled_of_keeps hstage.get) fun w => .bind others_refl (journaled_of_keeps (hstage.when
    (keeps_bind (hstage.update_journal n.id fun _ => rfl) fun _ => hstage.persist))) fun _ =>
    .bind others_refl (attempt_negation_spec C n turn) fun certified => .ite (fun hcertified => ?_) fun _ => ?_
  · exact (refuted_spec n).mono (fun _ h => ⟨h.1, h.2 hcertified⟩) (fun _ _ h => h) fun _ _ h => h
  · exact (unrefuted_spec n).mono (fun _ h => h.1) (fun _ _ h => h) fun _ _ h => h

end Refute

/-! ### Planning again -/

section Planning
variable (S : Setup)

theorem Closed.seed_plan {P : World → Prop} (hP : Closed P) (hseed : Seedable P) (n : NodeRef) (rec : Journal) :
    Prog.Keeps Others P (Recovery.seed_plan n rec) :=
  .ite (hP.ret ()) (keeps_bind hP.get fun _ => keeps_bind (hP.update_journal n.id fun _ => rfl) fun _ =>
    keeps_bind (hP.seed_checkpoint hseed fun _ => ⟨rfl, rfl⟩) fun _ => hP.persist)

theorem Closed.plan_outcome {P : World → Prop} (hP : Closed P) (hseed : Seedable P) (n : NodeRef) (rec : Journal)
    (turn : Planning) :
    Prog.Keeps Others P (Recovery.plan_outcome S n rec turn) :=
  keeps_bind hP.get fun _ => .ite (hP.research_plan S hseed _ _ _ turn) (hP.ret _)

theorem Closed.unblocked {P : World → Prop} (hP : Closed P) (ids : List String) {status : NodeStatus} (hstatus : status ≠ .disproved) :
    Prog.Keeps Others P (Prog.modify (World.updateDag (unblock ids status)) : Controller Unit) :=
  hP.modify fun w _ => neutral_updateDag w fun node h => by
    split at h
    · exact absurd h hstatus
    · rw [if_neg ‹_›]
      exact ⟨h, rfl⟩

theorem stays_declined (n : NodeRef) : Stays cap r (declined n) := by
  have huncharged := closed_journaled cap r 0 0 n.id uncharged
  refine Stays.bind (.of_keeps (closed_sound.update_node n (fun _ h => h) fun _ => rfl)) fun _ => ?_
  refine Prog.Outline.bind others_refl (uncharge fun rec => ⟨rfl, Or.inl rfl⟩) fun _ => ?_
  refine .bind others_refl (journaled_of_keeps (huncharged.update_journal n.id fun _ => rfl)) fun _ =>
    .bind others_refl (journaled_of_keeps (huncharged.update_journal n.id fun _ => rfl)) fun _ =>
    .bind others_refl (journaled_of_keeps (huncharged.update_journal n.id fun _ => rfl)) fun _ =>
    .bind others_refl reopened fun _ => stays_persist

theorem stays_replan (n : NodeRef) (rec : Journal) (turn : Planning) : Stays cap r (replan S n rec turn) := by
  refine Stays.bind (.of_keeps closed_sound.get) fun w => .bind (.of_keeps (closed_sound.seed_plan seedable_sound n rec)) fun _ =>
    .bind (.of_keeps (closed_sound.plan_outcome S seedable_sound n rec turn)) fun applied => Prog.Outline.ite (fun _ => ?_) fun _ => ?_
  · refine Stays.bind (.of_keeps ?_) fun _ => .bind (stays_dismiss n.id) fun _ => .of_keeps (closed_sound.ret false)
    split
    · exact closed_sound.unblocked _ (by decide)
    · exact closed_sound.unblocked _ (by decide)
  · exact (stays_declined n).bind fun _ => .of_keeps (closed_sound.ret true)

/-! ### The loop -/

theorem stays_reopen_budget (n : NodeRef) : Stays cap r (reopen_budget n) :=
  Prog.Outline.bind others_refl (uncharge fun _ => ⟨rfl, Or.inr rfl⟩) fun _ =>
    stays_persist.mono (fun _ h => h.1) (fun _ _ h => h) fun _ _ h => h

variable (hconfig : Within cap S.config)
include hconfig

/-- One round. -/
theorem stays_recover_round (n : NodeRef) (turn : Turn) : Stays cap r (recover_round S n turn) := by
  refine Prog.Outline.bind others_refl read fun w =>
    .ite (fun _ => ret_at w.state.Read false (undated_read _)) fun _ => ?_
  split
  · exact ret_at w.state.Read false (undated_read _)
  · rename_i rec hrec
    have hjournal (w' : World) (h : w.state.Read w'.state) : w'.state.recovery_in_flight.get? n.id = some rec := by
      obtain ⟨dag, hstate⟩ := h
      rw [hstate]
      exact hrec
    have hstays {x : Controller Bool} (hx : Stays cap r x) : Prog.Outline Others (Passing cap r)
        (fun w' => Sound cap r 0 0 w' ∧ w.state.Read w'.state) x (fun _ => Sound cap r 0 0) fun _ => Sound cap r 0 0 :=
      hx.mono (fun _ h => h.1) (fun _ _ h => h) fun _ _ h => h
    split
    · exact .ite (fun _ => ret_at w.state.Read false (undated_read _)) fun _ =>
        hstays ((stays_reopen_budget n).bind fun _ => .of_keeps (closed_sound.ret true))
    · exact hstays ((stays_dismiss n.id).bind fun _ => .of_keeps (closed_sound.ret false))
    · rename_i hstage
      refine .bind others_refl ((charge_spec hconfig n hstage).mono (fun w' h => ⟨h.1, hjournal w' h.2⟩) (fun _ _ h => h)
        fun _ _ h => h) fun charged => .ite (fun hcharged => ?_) fun _ => ?_
      · refine .bind (Q := fun _ => Sound cap r 0 0) others_refl ?_ fun _ => Stays.of_keeps (closed_sound.ret true)
        exact (decide_recovery_spec S.classes S.repr S.json_report n turn.report turn.decision).mono (fun _ h => ⟨h.1, h.2 hcharged⟩)
          (fun _ _ h => h) fun _ _ h => h
      · exact (Stays.of_keeps (closed_sound.ret false)).mono (fun _ h => h.1) (fun _ _ h => h) fun _ _ h => h
    · rename_i hstage
      refine .bind (Q := fun _ => Sound cap r 0 0) others_refl ?_ fun _ => Stays.of_keeps (closed_sound.ret true)
      refine (refute_spec S.classes n turn.refutation).mono (fun w' h => ⟨h.1, (rec.charged, rec.decision_result), ?_⟩)
        (fun _ _ h => h) fun _ _ h => h
      show (w'.state.recovery_in_flight.get? n.id).map Journal.core = _
      rw [hjournal w' h.2, Option.map_some, Journal.core, hstage]
    · exact hstays (stays_replan S n rec turn.planning)
    · exact hstays (.of_keeps (closed_sound.raise _))

/-- Every round starts as the first did. -/
theorem stays_recover_rounds (n : NodeRef) (turns : List Turn) : Stays cap r (recover_rounds S n turns) := by
  induction turns with
  | nil => exact .of_keeps (closed_sound.raise _)
  | cons turn turns ih =>
    exact (stays_recover_round S hconfig n turn).bind fun more =>
      Prog.Outline.ite (fun _ => ih) fun _ => Stays.of_keeps (closed_sound.ret ())

theorem stays_recover (n : NodeRef) (pending : Bool) (turns : List Turn) :
    Stays cap r (recover_with_role_capacity S n pending turns) :=
  Prog.Outline.handle others_refl ((stays_enqueue n).bind fun _ => stays_recover_rounds S hconfig n turns) fun e =>
    Prog.Outline.ite (fun _ => stays_persist) fun _ => Stays.of_keeps (closed_sound.raise e)

end Planning

end LeanFlow.Recovery
