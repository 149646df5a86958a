import LeanFlow.Recovery.Charged

/-! From one stage to the next.

A decision is recorded before the journal leaves its stage, and an outcome is kept before the session that
found it has ended. Each stage is sound at both ends. -/
namespace LeanFlow.Recovery
open General Goals Jobs Source

variable {cap : Option Nat} {r : Nat} {state : State} {id : String}

/-! ### The answer -/

/-- The charge, and no answer yet. -/
def unasked (core : Option (Stage × Bool × Option String)) : Prop := core = some (.decide, true, none)

theorem unasked.owing {core : Option (Stage × Bool × Option String)} (h : unasked core) : owing core := ⟨none, h⟩

/-- The end of the session, whose answer is in the journal unless it is asked again. -/
theorem finish_decision_spec (n : NodeRef) (report : String) (ref : Nat) (session : Session) :
    Prog.Outline Others (Passing cap r)
      (fun w => (Sound cap r 0 0 w ∧ Journaled n.id unasked w) ∧ Owned (.prompt .orchestrator (.decision report)) ref w)
      (do
        when (¬ infrastructure_failure session.status) do
          update_journal n.id fun rec => { rec with decision_result := some session.reply }
        finish_job ref session)
      (fun _ w => Sound cap r 0 0 w ∧ Journaled n.id owing w) fun _ => Sound cap r 0 0 := by
  have hafter := closed_journaled cap r 0 0 n.id owing
  cases hinfra : infrastructure_failure session.status with
  | true =>
    have hbefore := (closed_journaled cap r 0 0 n.id unasked).and
      (framed_owned (.prompt .orchestrator (.decision report)) ref)
    refine .bind (Q := fun _ w => (Sound cap r 0 0 w ∧ Journaled n.id unasked w) ∧ Owned (.prompt .orchestrator (.decision report)) ref w) others_refl
      (.ite (fun hnot => absurd rfl (hinfra ▸ hnot)) fun _ => .ret ⟨hbefore.stable, fun _ h => h.1.1.passing⟩ fun _ h => h)
      fun _ => ?_
    refine sound_within (hafter.finish_job ⟨hbefore.stable, fun w h => ⟨h.1.1, h.1.2.owing⟩⟩ fun w h => ?_) fun _ h => h.1
    refine ⟨h.1.1.account (h.1.1.live.finish_unfinished ?_ ref) (same_finished ..), h.1.2.owing⟩
    cases hstatus : session.status <;> rw [hstatus] at hinfra <;> first | rfl | cases hinfra
  | false =>
    have hbefore := (closed_journaled cap r 0 1 n.id owing).and
      (framed_owned (.prompt .orchestrator (.decision report)) ref)
    refine .bind (Q := fun _ w => (Sound cap r 0 1 w ∧ Journaled n.id owing w) ∧ Owned (.prompt .orchestrator (.decision report)) ref w) others_refl
      (.ite (fun _ => ?_) fun hnot => absurd (hinfra ▸ Bool.false_ne_true) hnot) fun _ => ?_
    · refine .modify ⟨((closed_journaled cap r 0 0 n.id unasked).and
        (framed_owned (.prompt .orchestrator (.decision report)) ref)).stable, fun _ h => h.1.1.passing⟩ ⟨hbefore.stable, fun _ h => h.1.1.passing⟩
        fun w h => ⟨⟨h.1.1.account (h.1.1.live.answer h.1.2 session.reply) (same_books ..), some session.reply, ?_⟩, h.2⟩
      obtain ⟨rec, hrec, hcore⟩ := Option.map_eq_some_iff.mp h.1.2
      show ((w.state.updateJournal n.id _).recovery_in_flight.get? n.id).map Journal.core = _
      rw [get?_updateJournal_self, show w.state.recovery_in_flight.get? n.id = some rec from hrec]
      simp only [Journal.core, Prod.mk.injEq] at hcore
      simp only [Option.map_some, Journal.core, hcore]
    · have hinside (w : World) (h : (Sound cap r 0 1 w ∧ Journaled n.id owing w) ∧ Owned (.prompt .orchestrator (.decision report)) ref w) :
          Sound cap r 0 0 w ∧ Journaled n.id owing w := ⟨h.1.1.mono le_rfl (Nat.zero_le 1), h.1.2⟩
      refine sound_within (hafter.finish_job ⟨hbefore.stable, hinside⟩ fun w h => ?_) fun _ h => h.1
      obtain ⟨job, hjob, hkey⟩ := h.2
      have hbooks := h.1.1.live.finish_decision hjob (Job.prompt_of_key hkey).1 session.status
      exact ⟨h.1.1.account hbooks (same_finished ..), h.1.2⟩

/-- A decision is bought once: a reply that is there is replayed. -/
theorem recovery_decision_spec (C : CharClass) (repr : Json → String) (json_report : String → Fields) (n : NodeRef)
    (report : String) (session : Session) :
    Prog.Outline Others (Passing cap r) (fun w => Sound cap r 0 0 w ∧ Journaled n.id owing w)
      (recovery_decision C repr json_report n report session) (fun _ w => Sound cap r 0 0 w ∧ Journaled n.id owing w)
      fun _ => Sound cap r 0 0 := by
  have howing := closed_journaled cap r 0 0 n.id owing
  let asks (state : State) : Prop := owing ((state.recovery_in_flight.get? n.id).map Journal.core)
  refine .bind others_refl (read_at asks fun _ _ h => h) fun w => ?_
  split
  · refine .ret (kept_at (fun state => w.state.Read state ∧ asks w.state) fun state dag h => ⟨undated_read _ _ dag h.1, h.2⟩)
      fun w' h => ⟨h.1, ?_⟩
    obtain ⟨⟨dag, hstate⟩, hasks⟩ := h.2
    show asks w'.state
    rw [hstate]
    exact hasks
  · rename_i hnone
    have hfresh := closed_journaled cap r 0 0 n.id unasked
    refine Prog.Outline.mono (P := fun w => Sound cap r 0 0 w ∧ Journaled n.id unasked w) ?_ (fun w' h => ⟨h.1, ?_⟩)
      (fun _ _ h => h) fun _ _ h => h
    · refine .bind others_refl (sound_within (hfresh.new_job .orchestrator (.decision report) (some n) session) fun _ h => h.1) fun ref => ?_
      have hjob := hfresh.and (framed_owned (.prompt .orchestrator (.decision report)) ref)
      refine .bind others_refl (sound_within (hjob.invoke session) fun _ h => h.1.1) fun _ => ?_
      show Prog.Outline _ _ _ ((when _ _ >>= fun _ => finish_job ref session >>= fun _ => _) : Controller Decision) _ _
      rw [← bind_assoc]
      refine .bind others_refl (finish_decision_spec n report ref session) fun _ => ?_
      exact .bind others_refl (journaled_of_keeps howing.ensure_active) fun _ => .ret (kept_journaled n.id owing) fun _ h => h
    · obtain ⟨⟨dag, hstate⟩, reply, hcore⟩ := h.2
      show (w'.state.recovery_in_flight.get? n.id).map Journal.core = _
      rw [hstate]
      obtain ⟨rec, hrec, hrest⟩ := Option.map_eq_some_iff.mp hcore
      rw [show w.journal n.id = some rec from hrec, Option.bind_some] at hnone
      simp only [Journal.core, Prod.mk.injEq] at hrest
      show (w.state.recovery_in_flight.get? n.id).map Journal.core = _
      rw [hcore, ← hrest.2.2, hnone]

/-! ### The record -/

/-- The decision is recorded, and its journal has not moved on. -/
structure Deciding (cap : Option Nat) (r : Nat) (id : String) (decision : Decision) (revision : Nat) (w : World) : Prop where
  live : Books cap 0 0 r (w.state.without id).account
  durable : Tolerable cap r w.disk.account
  truth : Truth w
  stage : ∀ rec, w.state.recovery_in_flight.get? id = some rec → rec.stage = .decide
  record : ∃ record, w.state.recovery_decisions.getLast? = some record ∧ record.node_id = id ∧ record.decision = decision ∧
    record.node_revision = revision
  credit : decision.action = "negate" → w.state.account.bought id + 1 ≤ w.state.account.allowed id

section Deciding
variable {decision : Decision} {revision : Nat}

theorem any_of_stage {o : Option Journal} {stage : Stage} (h : ∀ rec, o = some rec → rec.stage = stage) {p : Journal → Bool}
    (hp : ∀ rec : Journal, rec.stage = stage → p rec = false) : o.any p = false := by
  cases o with
  | none => rfl
  | some rec => exact hp rec (h rec rfl)

/-- The books without a journal, and the journal. -/
theorem Books.tolerable_of_without (h : Books cap 0 0 r (state.without id).account)
    (hstage : ∀ rec, state.recovery_in_flight.get? id = some rec → rec.stage = .decide) : Tolerable cap r state.account where
  books := h.back (any_of_stage hstage fun rec h => by rw [Journal.unknown, h])
    (fun hr => absurd ((any_of_stage hstage fun rec h => by rw [Journal.refuting, h]; rfl).symm.trans hr) Bool.false_ne_true)
    (Bool.toNat_le _)
  entries := by
    have hentries := h.entries
    change state.recovery_decisions.length + _ + 0 ≤ state.decompositions + r at hentries
    show state.recovery_decisions.length ≤ state.decompositions + r
    omega
  turns := by
    have hturns := h.turns
    change state.jobs.countP _ + _ + 0 ≤ state.decompositions + r at hturns
    show state.jobs.countP _ ≤ state.decompositions + r
    omega

theorem Deciding.passing {w : World} (h : Deciding cap r id decision revision w) : Passing cap r w :=
  ⟨h.live.tolerable_of_without h.stage, h.durable, h.truth⟩

theorem kept_deciding : Prog.Kept Others (Passing cap r) (Deciding cap r id decision revision) where
  stable := stable_of_other (fun _ h => { h with truth := h.truth.record })
    (fun _ h => { h with durable := h.passing.live, truth := h.truth.publish })
    fun _ h => { h with truth := stable_truth _ _ h.truth (others_of_other .stop _ _ rfl) }
  inside _ h := h.passing

/-- The journal has the charge, and the record uses it. -/
theorem Sound.record {w : World} (h : Sound cap r 0 0 w) (howing : Journaled id owing w) (record : Record)
    (hid : record.node_id = id) :
    Deciding cap r id record.decision record.node_revision
      { w with state := { w.state with recovery_decisions := w.state.recovery_decisions ++ [record] } } := by
  obtain ⟨reply, hcore⟩ := howing
  obtain ⟨rec, hrec, hrest⟩ := Option.map_eq_some_iff.mp hcore
  have hrec : w.state.recovery_in_flight.get? id = some rec := hrec
  simp only [Journal.core, Prod.mk.injEq] at hrest
  have hreleased := h.live.release (by
    rw [hrec, Option.any_some, Journal.owed, hrest.1, hrest.2.1]
    rfl)
  have hallowed (key : String) : w.state.account.allowed key ≤ (w.state.recovery_decisions ++ [record]).countP (Record.negates key) := by
    rw [List.countP_append]
    exact Nat.le_add_right ..
  refine ⟨{ hreleased with entries := ?_, refutations := fun key => (hreleased.refutations key).trans (hallowed key) },
    h.durable, { h.truth with guided := fun key guidance hguidance => ?_ }, fun rec' hrec' => ?_,
    ⟨record, List.getLast?_concat, hid, rfl, rfl⟩, fun hnegate => ?_⟩
  · have hentries := hreleased.entries
    change w.state.recovery_decisions.length + _ + (0 + 1) ≤ w.state.decompositions + r at hentries
    show (w.state.recovery_decisions ++ [record]).length + (w.state.without id).account.owed + 0 ≤ w.state.decompositions + r
    rw [List.length_append, List.length_singleton]
    change w.state.recovery_decisions.length + (w.state.without id).account.owed + (0 + 1) ≤ w.state.decompositions + r at hentries
    omega
  · obtain ⟨old, hold, hof⟩ := h.truth.guided key guidance hguidance
    exact ⟨old, (List.getElem?_append_left (List.getElem?_eq_some_iff.mp hold).1).trans hold, hof⟩
  · obtain rfl := Option.some.inj (hrec.symm.trans hrec')
    exact hrest.1
  · have hbought := h.live.refutations id
    show w.state.account.bought id + 1 ≤ (w.state.recovery_decisions ++ [record]).countP (Record.negates id)
    rw [List.countP_append, List.countP_singleton, if_pos]
    · change _ ≤ w.state.recovery_decisions.countP (Record.negates id) at hbought
      omega
    · rw [Record.negates, hid, hnegate]
      simp

/-- A journal that stays in the stage. -/
theorem Deciding.journal {w : World} (h : Deciding cap r id decision revision w) {f : Journal → Journal}
    (hf : ∀ rec, (f rec).stage = rec.stage) :
    Deciding cap r id decision revision { w with state := w.state.updateJournal id f } where
  live := (without_updateJournal id f w.state).symm ▸ h.live
  durable := h.durable
  truth := { h.truth with }
  stage rec hrec := by
    rw [get?_updateJournal_self] at hrec
    obtain ⟨rec', hrec', rfl⟩ := Option.map_eq_some_iff.mp hrec
    exact (hf rec').trans (h.stage rec' hrec')
  record := h.record
  credit := h.credit

/-- The guidance of the recorded decision, or none. -/
theorem Deciding.guidance {w : World} (h : Deciding cap r id decision revision w) :
    Deciding cap r id decision revision { w with
      state := { w.state with
        prover_recovery_guidance :=
          if decision.action ∈ ["retry", "continue", "negate"] then
            w.state.prover_recovery_guidance.set id {
              node_revision := revision
              action := decision.action
              instructions := decision.instructions
              rationale := decision.rationale
              decision_index := w.state.recovery_decisions.length - 1 }
          else w.state.prover_recovery_guidance.erase id } } where
  live := h.live
  durable := h.durable
  truth :=
    { h.truth with
      guided := fun key guidance hguidance => by
        obtain ⟨record, hlast, rfl, rfl, rfl⟩ := h.record
        simp only at hguidance
        split at hguidance
        · rw [Dict.get?_set] at hguidance
          split at hguidance
          · rename_i hkey
            obtain rfl := Option.some.inj hguidance
            exact ⟨record, List.getLast?_eq_getElem?.symm.trans hlast, hkey.symm, rfl, rfl, rfl, rfl⟩
          · exact h.truth.guided key guidance hguidance
        · rw [Dict.get?_erase] at hguidance
          split at hguidance
          · cases hguidance
          · exact h.truth.guided key guidance hguidance }
  stage := h.stage
  record := h.record
  credit := h.credit

/-- The journal moves on. -/
theorem Deciding.land {w : World} (h : Deciding cap r id decision revision w) {f : Journal → Journal}
    (hf : ∀ rec, rec.stage = .decide →
      (f rec).owed = false ∧ (f rec).unknown = false ∧ ((f rec).refuting = true → decision.action = "negate")) :
    Sound cap r 0 0 { w with state := w.state.updateJournal id f } where
  live := by
    have hothers : Books cap 0 0 r ((w.state.updateJournal id f).without id).account :=
      (without_updateJournal id f w.state).symm ▸ h.live
    have hland (rec : Journal) (hrec : (w.state.updateJournal id f).recovery_in_flight.get? id = some rec) :
        rec.owed = false ∧ rec.unknown = false ∧ (rec.refuting = true → decision.action = "negate") := by
      rw [get?_updateJournal_self] at hrec
      obtain ⟨rec', hrec', rfl⟩ := Option.map_eq_some_iff.mp hrec
      exact hf rec' (h.stage rec' hrec')
    have hback := hothers.back (n := 0)
    cases hrec : (w.state.updateJournal id f).recovery_in_flight.get? id with
    | none =>
      rw [hrec] at hback
      exact hback rfl (fun hr => absurd hr Bool.false_ne_true) le_rfl
    | some rec =>
      obtain ⟨howed, hknown, hrefuting⟩ := hland rec hrec
      rw [hrec] at hback
      exact hback hknown (fun hr _ => h.credit (hrefuting hr)) (le_of_eq (congrArg Bool.toNat howed))
  durable := h.durable
  truth := { h.truth with }

/-! ### Where it leads -/

variable {E : Raised → World → Prop}

theorem deciding_journal {f : Journal → Journal} (hf : ∀ rec, (f rec).stage = rec.stage) :
    Prog.Outline Others (Passing cap r) (Deciding cap r id decision revision) (update_journal id f)
      (fun _ => Deciding cap r id decision revision) E :=
  .modify kept_deciding kept_deciding fun _ h => h.journal hf

theorem deciding_node (n : NodeRef) {f : Node → Node} (hf : ∀ node, (f node).status = .disproved → node.status = .disproved)
    (hid : ∀ node, (f node).id = node.id) :
    Prog.Outline Others (Passing cap r) (Deciding cap r id decision revision) (update_node n f)
      (fun _ => Deciding cap r id decision revision) E :=
  .modify kept_deciding kept_deciding fun w h => { h with truth := (neutral_updateNode w n hf hid).truth h.truth }

theorem landed {f : Journal → Journal}
    (hf : ∀ rec, rec.stage = .decide →
      (f rec).owed = false ∧ (f rec).unknown = false ∧ ((f rec).refuting = true → decision.action = "negate")) :
    Prog.Outline Others (Passing cap r) (Deciding cap r id decision revision) (update_journal id f) (fun _ => Sound cap r 0 0) E :=
  .modify kept_deciding ⟨closed_sound.stable, fun _ h => h.passing⟩ fun _ h => h.land hf

end Deciding

/-- Not charged, or charged anew. -/
def uncharged (core : Option (Stage × Bool × Option String)) : Prop := ∀ c, core = some c → c.2.1 = false

/-- A journal that is not charged goes back to the orchestrator. -/
theorem uncharge_at {E : Raised → World → Prop} (p : Option (Stage × Bool × Option String) → Prop) {f : Journal → Journal}
    (hf : ∀ rec : Journal, p (some rec.core) → (f rec).charged = false ∧ ((f rec).stage = rec.stage ∨ (f rec).stage = .decide)) :
    Prog.Outline Others (Passing cap r) (fun w => Sound cap r 0 0 w ∧ Journaled id p w) (update_journal id f)
      (fun _ w => Sound cap r 0 0 w ∧ Journaled id uncharged w) E := by
  refine .modify (kept_journaled id p) (kept_journaled id uncharged) fun w h =>
    ⟨h.1.account (h.1.live.uncharged fun rec hrec => ?_) (same_books ..), ?_⟩
  · exact hf rec (core_of_get h.2 hrec)
  · intro c hc
    obtain ⟨rec, hrec, rfl⟩ := exists_of_core hc
    exact (hf rec (core_of_get h.2 hrec)).1

theorem uncharge {E : Raised → World → Prop} {f : Journal → Journal}
    (hf : ∀ rec, (f rec).charged = false ∧ ((f rec).stage = rec.stage ∨ (f rec).stage = .decide)) :
    Prog.Outline Others (Passing cap r) (Sound cap r 0 0) (update_journal id f)
      (fun _ w => Sound cap r 0 0 w ∧ Journaled id uncharged w) E :=
  (uncharge_at (fun _ => True) fun rec _ => hf rec).mono (fun _ h => ⟨h, trivial⟩) (fun _ _ h => h) fun _ _ h => h

theorem reopened {E : Raised → World → Prop} :
    Prog.Outline Others (Passing cap r) (fun w => Sound cap r 0 0 w ∧ Journaled id uncharged w)
      (update_journal id fun rec => { rec with stage := .decide }) (fun _ => Sound cap r 0 0) E :=
  (uncharge_at uncharged (f := fun rec => { rec with stage := .decide }) fun _ h => ⟨h _ rfl, Or.inr rfl⟩).mono (fun _ h => h)
    (fun _ _ h => h.1) fun _ _ h => h

theorem advance_spec (n : NodeRef) (decision : Decision) (revision : Nat) :
    Prog.Outline Others (Passing cap r) (Deciding cap r n.id decision revision) (advance n decision)
      (fun _ => Sound cap r 0 0) fun _ => Sound cap r 0 0 := by
  refine .ite (fun _ => ?_) fun _ => .ite (fun _ => ?_) fun _ => .ite (fun hnegate => ?_) fun _ => ?_
  · exact .bind others_refl (deciding_node n (fun _ h => by cases h) fun _ => rfl) fun _ =>
      landed fun _ _ => ⟨rfl, rfl, fun h => by cases h⟩
  · refine .bind (Q := fun _ w => Sound cap r 0 0 w ∧ Journaled n.id uncharged w) others_refl
      (.modify kept_deciding (kept_journaled n.id uncharged) fun w h => ⟨h.land fun rec hstage => ?_, fun c hc => ?_⟩) fun _ => ?_
    · refine ⟨Bool.and_false _, ?_, fun hr => ?_⟩
      · rw [Journal.unknown, hstage]
      · rw [Journal.refuting, hstage] at hr
        cases hr
    · obtain ⟨rec, -, rfl⟩ := exists_of_core hc
      rfl
    · refine .bind others_refl (journaled_of_keeps ((closed_journaled cap r 0 0 n.id uncharged).update_journal n.id
        fun _ => rfl)) fun _ => reopened
  · exact landed fun _ _ => ⟨rfl, rfl, fun _ => hnegate⟩
  · refine .bind (Q := fun _ => Deciding cap r n.id decision revision) others_refl
      (.get kept_deciding fun w w' h hw => kept_deciding.stable w w' h hw) fun w => ?_
    refine .bind others_refl (landed fun _ _ => ⟨rfl, rfl, fun h => by cases h⟩) fun _ => ?_
    exact Stays.of_keeps (keeps_bind (closed_sound.update_journal n.id fun _ => rfl) fun _ =>
      keeps_bind (closed_sound.update_journal n.id fun _ => rfl) fun _ => closed_sound.update_journal n.id fun _ => rfl)

/-- **A charge buys one decision**, which is recorded before the journal moves on. -/
theorem decide_recovery_spec (C : CharClass) (repr : Json → String) (json_report : String → Fields) (n : NodeRef) (report : String)
    (session : Session) :
    Prog.Outline Others (Passing cap r) (fun w => Sound cap r 0 0 w ∧ Journaled n.id owing w)
      (decide_recovery C repr json_report n report session) (fun _ => Sound cap r 0 0) fun _ => Sound cap r 0 0 := by
  refine .bind others_refl (recovery_decision_spec C repr json_report n report session) fun answer => ?_
  refine .bind (Q := fun _ w => Sound cap r 0 0 w ∧ Journaled n.id owing w) others_refl
    (.get (kept_journaled n.id owing) fun w w' h hw => (kept_journaled n.id owing).stable w w' h hw) fun w => ?_
  refine .bind (Q := fun _ => Deciding cap r n.id (admissible (w.node n).status answer) (w.node n).revision) others_refl
    (.modify (kept_journaled n.id owing) kept_deciding fun w' h => h.1.record h.2 {
      node_id := n.id
      decision := admissible (w.node n).status answer
      budget_used := w'.state.decompositions
      node_revision := (w.node n).revision } rfl) fun _ => ?_
  refine .bind others_refl (deciding_node n (fun _ h => h) fun _ => rfl) fun _ => ?_
  refine .bind others_refl (deciding_journal fun _ => rfl) fun _ => ?_
  refine .bind others_refl (deciding_journal fun _ => rfl) fun _ => ?_
  refine .bind (Q := fun _ => Deciding cap r n.id (admissible (w.node n).status answer) (w.node n).revision) others_refl
    (.modify kept_deciding kept_deciding fun _ h => h.guidance) fun _ => ?_
  exact .bind others_refl (advance_spec n _ _) fun _ => stays_persist

end LeanFlow.Recovery
