import LeanFlow.Recovery.Runs

/-! When the recovery loop returns.

It returns to its caller only when it is told to stop, when the journal is closed, or when it waits
for a budget that is used up; every other round goes on to the next. -/
namespace LeanFlow.Recovery
open General Goals Jobs

variable (S : Setup) (id : String)

/-! ### Where it may be left -/

/-- Nothing more is to be done for this journal now. -/
def State.rests (state : State) : Prop :=
  ∀ rec, state.recovery_in_flight.get? id = some rec →
    rec.stage = .budget_exhausted ∧ exhausted S.config state = true

def World.left (w : World) : Prop := w.stopping = true ∨ w.cancelled = true ∨ w.state.rests S id

theorem stable_left : Prog.Stable Others (World.left S id) :=
  stable_of_other (fun _ h => h) (fun _ h => h) fun _ _ => Or.inl rfl

theorem stable_rests : Prog.Stable Others fun w => w.state.rests S id :=
  stable_state (State.rests S id) fun _ _ h => h

/-- What depends on the journals and the budget alone is not changed by writing the state. -/
theorem keeps_persist (p : Dict String Journal → Nat → Prop) :
    Prog.Keeps Others (fun w => p w.state.recovery_in_flight w.state.decompositions) persist := by
  have hstable : Prog.Stable Others fun w => p w.state.recovery_in_flight w.state.decompositions :=
    stable_state (fun state => p state.recovery_in_flight state.decompositions) fun _ _ h => h
  exact keeps_bind (.fault hstable _) fun _ => keeps_bind (.modify hstable fun _ h => h) fun _ =>
    keeps_bind (.fault hstable _) fun _ => .modify hstable fun _ h => h

section Returns
variable {S id}

theorem persist_rests :
    Prog.Triple Others (fun w => w.state.rests S id) persist (fun _ w => w.state.rests S id)
      fun _ _ => True :=
  (keeps_persist fun journals decompositions => ∀ rec, journals.get? id = some rec →
    rec.stage = .budget_exhausted ∧
      S.config.max_decompositions.any (· ≤ decompositions) = true).triple.mono
    (fun _ h => h) (fun _ _ h => h) fun _ _ _ => trivial

/-- A journal that is closed rests. -/
theorem dismiss_rests :
    Prog.Triple Others (fun _ => True) (dismiss_recovery id) (fun _ w => w.state.rests S id)
      fun _ _ => True := by
  have hclosed : Prog.Stable Others fun w => w.state.recovery_in_flight.get? id = none :=
    stable_state (fun state => state.recovery_in_flight.get? id = none) fun _ _ h => h
  have hrests (w : World) (h : w.state.recovery_in_flight.get? id = none) : w.state.rests S id := by
    intro rec hrec
    rw [h] at hrec
    cases hrec
  refine .bind others_refl (.any _) fun w =>
    .bind (Q := fun _ w => w.state.recovery_in_flight.get? id = none) others_refl
      (.modify (Prog.stable_const True) hclosed fun w _ => ?_) fun _ => ?_
  · show (w.state.recovery_in_flight.erase id).get? id = none
    rw [Dict.get?_erase, if_pos rfl]
  refine .bind (Q := fun _ w => w.state.recovery_in_flight.get? id = none) others_refl
    (.modify hclosed hclosed fun _ h => h) fun _ => .ite (fun _ => ?_) fun _ => .ret hclosed hrests
  exact persist_rests.mono hrests (fun _ _ h => h) fun _ _ h => h

/-! ### One round -/

/-- Going on says nothing. -/
theorem goes_on {P : World → Prop} (hP : Prog.Stable Others P) {p : World → Prop} :
    Prog.Triple Others P (return true : Controller Bool) (fun more w => more = false → p w)
      fun _ _ => True := by
  refine .ret hP fun w _ hmore => ?_
  cases hmore

/-- Whatever is done first, the round goes on. -/
theorem goes_on_after {α : Type} {P p : World → Prop} (x : Controller α) :
    Prog.Triple Others P (x >>= fun _ => return true) (fun more w => more = false → p w)
      fun _ _ => True := by
  have hany : Prog.Triple Others P x (fun _ _ => True) fun _ _ => True :=
    (Prog.Triple.any x).mono (fun _ _ => trivial) (fun _ _ h => h) fun _ _ h => h
  exact .bind others_refl hany fun _ => goes_on (Prog.stable_const True)

/-- The budget is used up, and the journal says so. -/
theorem exhaust_rests (n : NodeRef) (notes : String) :
    Prog.Triple Others (fun w => exhausted S.config w.state = true)
      (do
        update_node n fun node => { node with notes := node.notes ++ notes }
        update_journal n.id fun rec => { rec with stage := .budget_exhausted }
        persist
        return false : Controller Bool)
      (fun charged w => charged = false → w.state.rests S n.id) fun _ _ => True := by
  have hspent : Prog.Stable Others fun w => exhausted S.config w.state = true :=
    stable_state (fun state => exhausted S.config state = true) fun _ _ h => h
  have hrests : Prog.Stable Others fun w => w.state.rests S n.id := stable_rests S n.id
  have hnode : Prog.Triple Others (fun w => exhausted S.config w.state = true)
      (update_node n fun node => { node with notes := node.notes ++ notes })
      (fun _ w => exhausted S.config w.state = true) fun _ _ => True :=
    .modify hspent hspent fun _ h => h
  have hjournal : Prog.Triple Others (fun w => exhausted S.config w.state = true)
      (update_journal n.id fun rec => { rec with stage := .budget_exhausted })
      (fun _ w => w.state.rests S n.id) fun _ _ => True := by
    refine .modify hspent hrests fun w h rec' hrec => ?_
    rw [get?_updateJournal_self] at hrec
    obtain ⟨rec, _, rfl⟩ := Option.map_eq_some_iff.mp hrec
    exact ⟨rfl, h⟩
  have hreturn : Prog.Triple Others (fun w => w.state.rests S n.id) (return false : Controller Bool)
      (fun charged w => charged = false → w.state.rests S n.id) fun _ _ => True :=
    .ret hrests fun _ h _ => h
  exact .bind others_refl hnode fun _ => .bind others_refl hjournal fun _ =>
    .bind others_refl persist_rests fun _ => hreturn

/-- Nothing is charged when nothing is left. -/
theorem charge_rests (n : NodeRef) (rec : Journal) :
    Prog.Triple Others (fun _ => True) (charge S.config n rec)
      (fun charged w => charged = false → w.state.rests S n.id) fun _ _ => True := by
  have hread : Prog.Triple Others (fun _ => True) (Prog.get : Controller World)
      (fun w w' => w.state.Read w'.state) fun _ _ => True :=
    .get (Prog.stable_const True) fun w w' _ h => stable_read w.state w w' (.refl _) h
  refine .ite (fun _ => goes_on (Prog.stable_const True)) fun _ => ?_
  refine .bind others_refl hread fun w => .ite (fun hexhausted => ?_) fun _ => ?_
  · refine (exhaust_rests n _).mono (fun w' h => ?_) (fun _ _ h => h) fun _ _ h => h
    obtain ⟨dag, hstate⟩ := h
    rw [hstate]
    exact hexhausted
  · exact goes_on_after (do
      assign fun state => { state with decompositions := state.decompositions + 1 }
      update_node n fun node => { node with decompositions := node.decompositions + 1 }
      update_journal n.id fun rec => { rec with charged := true }
      persist)

theorem replan_rests (n : NodeRef) (rec : Journal) (turn : Planning) :
    Prog.Triple Others (fun _ => True) (replan S n rec turn)
      (fun more w => more = false → w.state.rests S n.id) fun _ _ => True := by
  refine .bind others_refl (.any _) fun w => .bind others_refl (.any _) fun _ =>
    .bind others_refl (.any _) fun applied => .ite (fun _ => ?_) fun _ => goes_on_after _
  exact .bind others_refl (.any _) fun _ => .bind others_refl dismiss_rests fun _ =>
    .ret (stable_rests S n.id) fun _ h _ => h

/-- Deciding goes on, unless there is nothing left to charge. -/
theorem decide_rests (n : NodeRef) (rec : Journal) (turn : Turn) :
    Prog.Triple Others (fun _ => True)
      (do
        let charged ← charge S.config n rec
        if charged then
          decide_recovery S.classes S.repr S.json_report n turn.report turn.decision
          return true
        else return false)
      (fun more w => more = false → w.state.rests S n.id) fun _ _ => True := by
  refine .bind others_refl (charge_rests n rec) fun charged =>
    .ite (fun _ => goes_on_after _) fun hcharged => ?_
  have hstable : Prog.Stable Others fun w => charged = false → w.state.rests S n.id :=
    stable_state (fun state => charged = false → state.rests S n.id) fun _ _ h => h
  exact .ret hstable fun w h _ => h (Bool.eq_false_iff.mpr hcharged)

/-- A round that is the last. -/
theorem recover_round_left (n : NodeRef) (turn : Turn) :
    Prog.Triple Others (fun _ => True) (recover_round S n turn)
      (fun more w => more = false → w.left S n.id) fun _ _ => True := by
  have hstopping : Prog.Stable Others fun w => w.stopping ∨ w.cancelled :=
    stable_of_other (fun _ h => h) (fun _ h => h) fun _ _ => Or.inl rfl
  have hread : Prog.Triple Others (fun _ => True) (Prog.get : Controller World)
      (fun w w' => w.state.Read w'.state ∧
        (w.stopping ∨ w.cancelled → w'.stopping ∨ w'.cancelled))
      fun _ _ => True :=
    .get (Prog.stable_const True) fun w w' _ h =>
      ⟨stable_read w.state w w' (.refl _) h, fun hstop => hstopping w w' hstop h⟩
  refine .bind others_refl hread fun w => ?_
  have hboth : Prog.Stable Others fun w' =>
      w.state.Read w'.state ∧ (w.stopping ∨ w.cancelled → w'.stopping ∨ w'.cancelled) :=
    (stable_read w.state).and fun w' w'' h hothers hstop => hstopping w' w'' (h hstop) hothers
  refine .ite (fun hstop => .ret hboth fun w' h _ => or_assoc.mp (Or.inl (h.2 hstop))) fun _ => ?_
  -- Not stopped: what is left is said by the journal that was read.
  refine Prog.Triple.mono (P := fun (w' : World) => w.state.Read w'.state)
    (Q := fun more w => more = false → w.state.rests S n.id) ?_ (fun _ h => h.1)
    (fun _ _ h hmore => Or.inr (Or.inr (h hmore))) fun _ _ h => h
  have hweaken {x : Controller Bool} (hx : Prog.Triple Others (fun _ => True) x
      (fun more w => more = false → w.state.rests S n.id) fun _ _ => True) :
      Prog.Triple Others (fun w' => w.state.Read w'.state) x
        (fun more w => more = false → w.state.rests S n.id) fun _ _ => True :=
    hx.mono (fun _ _ => trivial) (fun _ _ h => h) fun _ _ h => h
  split
  · rename_i hnone
    refine .ret (stable_read w.state) fun w' h _ rec hrec => ?_
    obtain ⟨dag, hstate⟩ := h
    rw [hstate] at hrec
    cases hnone.symm.trans hrec
  · rename_i rec hrec
    split
    · rename_i hstage
      refine .ite (fun hexhausted => .ret (stable_read w.state) fun w' h _ rec' hrec' => ?_)
        fun _ => goes_on_after _
      obtain ⟨dag, hstate⟩ := h
      rw [hstate] at hrec' ⊢
      obtain rfl := Option.some.inj (hrec.symm.trans hrec')
      exact ⟨hstage, hexhausted⟩
    · exact hweaken (.bind others_refl dismiss_rests fun _ =>
        .ret (stable_rests S n.id) fun _ h _ => h)
    · exact hweaken (decide_rests n rec turn)
    · exact goes_on_after _
    · exact hweaken (replan_rests n rec turn.planning)
    · exact .raise (stable_read w.state) fun _ _ => trivial

theorem recover_rounds_left (n : NodeRef) (turns : List Turn) :
    Prog.Triple Others (fun _ => True) (recover_rounds S n turns) (fun _ w => w.left S n.id)
      fun _ _ => True := by
  induction turns with
  | nil => exact .raise (Prog.stable_const True) fun _ _ => trivial
  | cons turn turns ih =>
    refine .bind others_refl (recover_round_left n turn) fun more => .ite (fun _ => ?_) fun hmore => ?_
    · exact ih.mono (fun _ _ => trivial) (fun _ _ h => h) fun _ _ h => h
    · have hmore : more = false := Bool.eq_false_iff.mpr hmore
      exact .ret (fun w w' h hothers _ => stable_left S n.id w w' (h hmore) hothers) fun w h => h hmore

end Returns

/-- **The loop returns only at rest**: its run was told to stop, or the journal is closed, or it
waits for a budget that is used up. -/
theorem recovery_returns {n : NodeRef} {turns : List Turn} {moves : List (Prog.Move Other)}
    {w w' : World} (hrun : Prog.outcome other moves (recover_loop S n turns) w = some (.ok (), w')) :
    w'.stopping = true ∨ w'.cancelled = true ∨
      ∀ rec, w'.journal n.id = some rec →
        rec.stage = .budget_exhausted ∧ exhausted S.config w'.state = true := by
  have hloop : Prog.Triple Others (fun _ => True) (recover_loop S n turns)
      (fun _ w => w.left S n.id) fun _ _ => True :=
    .bind others_refl (.any _) fun _ => recover_rounds_left n turns
  rcases hloop.result others_refl others_trans others_of_other trivial hrun with
    ⟨_, _, hleft⟩ | ⟨_, h, _⟩
  · exact hleft
  · cases h

/-- A retry closes the journal. -/
theorem sample_returns : ∃ (moves : List (Prog.Move Other)) (w : World),
    Prog.outcome other moves
        (recover_loop sampleSetup ⟨0, "a"⟩ [{ decision := { reply := "retry" } }, {}])
        (World.fresh sampleDag) = some (.ok (), w) ∧
      (w.stopping = false ∧ w.cancelled = false ∧ w.state.recovery_decisions.length = 1) ∧
      (w.stopping = true ∨ w.cancelled = true ∨
        ∀ rec, w.journal "a" = some rec →
          rec.stage = .budget_exhausted ∧ exhausted sampleSetup.config w.state = true) := by
  let x : Controller Unit :=
    recover_loop sampleSetup ⟨0, "a"⟩ [{ decision := { reply := "retry" } }, {}]
  have hcalm : (Prog.calm x (World.fresh sampleDag)).1.toBool = true := by decide +kernel
  obtain ⟨moves, hmoves⟩ := Prog.exists_calm other x (World.fresh sampleDag)
  have hrun : Prog.outcome other moves x (World.fresh sampleDag) =
      some (.ok (), (Prog.calm x (World.fresh sampleDag)).2) := by
    rw [Prog.outcome, hmoves]
    cases h : (Prog.calm x (World.fresh sampleDag)).1 with
    | ok _ => rfl
    | error e =>
      rw [h] at hcalm
      cases hcalm
  exact ⟨moves, _, hrun, by decide +kernel, recovery_returns sampleSetup hrun⟩

end LeanFlow.Recovery
