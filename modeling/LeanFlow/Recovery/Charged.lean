import LeanFlow.Recovery.Routine

/-! Every decision is charged.

`Sound` is what holds between two steps of recovery. While a decision is recorded the live state owes one
more for a moment; a life that is cut off there makes the next one ask again, without a charge. -/
namespace LeanFlow.Recovery
open General Goals Jobs

/-! ### Assertions -/

section Assertions
variable (cap : Option Nat) (r : Nat)

/-- What the durable state may be like in the `r`-th life after the first. -/
structure Tolerable (account : Account) : Prop where
  books : Books cap 0 0 (r + 1) account
  entries : account.entries ≤ account.paid + r
  turns : account.turns ≤ account.paid + r

structure Sound (decision turn : Nat) (w : World) : Prop where
  live : Books cap decision turn r w.state.account
  durable : Tolerable cap r w.disk.account
  truth : Truth w

/-- What holds at every point of a life. -/
structure Passing (w : World) : Prop where
  live : Tolerable cap r w.state.account
  durable : Tolerable cap r w.disk.account
  truth : Truth w

end Assertions

variable {cap : Option Nat} {r decision turn : Nat}

theorem Books.tolerable {account : Account} (h : Books cap decision turn r account) : Tolerable cap r account where
  books := h.mono (by omega) (by omega)
  entries := by have := h.entries; omega
  turns := by have := h.turns; omega

theorem Sound.passing {w : World} (h : Sound cap r decision turn w) : Passing cap r w := ⟨h.live.tolerable, h.durable, h.truth⟩

theorem Sound.mono {decision' turn' : Nat} {w : World} (h : Sound cap r decision turn w) (hd : decision' ≤ decision)
    (ht : turn' ≤ turn) : Sound cap r decision' turn' w :=
  { h with live := h.live.mono (by omega) (by omega) }

theorem closed_sound : Closed (Sound cap r decision turn) where
  stable := stable_of_other (fun _ h => { h with truth := h.truth.record })
    (fun _ h => { h with durable := h.live.tolerable, truth := h.truth.publish })
    fun _ h => { h with truth := stable_truth _ _ h.truth (others_of_other .stop _ _ rfl) }
  neutral _ _ h hw := ⟨h.account ▸ hw.live, h.disk ▸ hw.durable, h.truth hw.truth⟩
  truth _ h := h.truth

/-- A new request changes no figure. -/
theorem seedable_sound : Seedable (Sound cap r decision turn) := fun _ _ hfresh h =>
  { h with truth := { h.truth with stepped := h.truth.stepped.seed hfresh } }

/-- What is told of refutations and decisions is the same. -/
structure Same (state state' : State) : Prop where
  dag : state'.dag = state.dag
  disproof : state'.disproof = state.disproof
  decisions : state'.recovery_decisions = state.recovery_decisions
  guidance : state'.prover_recovery_guidance = state.prover_recovery_guidance
  request : state'.planning_request = state.planning_request
  jobs : KeptJobs state.jobs state'.jobs

theorem same_books (state : State) (decompositions : Nat) (recovery_in_flight : Dict String Journal)
    (negation_proofs : Dict String String) : Same state { state with decompositions, recovery_in_flight, negation_proofs } :=
  ⟨rfl, rfl, rfl, rfl, rfl, keptJobs_refl _⟩

theorem same_finished (state : State) (ref : Nat) (status : JobStatus) :
    Same state (state.updateJob ref fun job => { job with status }) :=
  ⟨rfl, rfl, rfl, rfl, rfl, keptJobs_modify _ ref fun _ => rfl⟩

/-- The figures change, and nothing else that matters. -/
theorem Sound.account {w : World} (h : Sound cap r decision turn w) {decision' turn' : Nat} {state : State}
    (hlive : Books cap decision' turn' r state.account) (hsame : Same w.state state) : Sound cap r decision' turn' { w with state } where
  live := hlive
  durable := h.durable
  truth := { h.truth with
    live := by
      show Refuted _ state.dag
      rw [hsame.dag]
      exact h.truth.live
    disproof := by
      show ∀ id, state.disproof = some id → _
      rw [hsame.disproof]
      exact h.truth.disproof
    guided := by
      show ∀ id guidance, state.prover_recovery_guidance.get? id = some guidance →
        ∃ record, state.recovery_decisions[guidance.decision_index]? = some record ∧ guidance.of id record
      rw [hsame.guidance, hsame.decisions]
      exact h.truth.guided
    stepped := h.truth.stepped.of_jobs hsame.request hsame.jobs }

/-! ### Programs -/

/-- A program that is sound at both ends. -/
def Stays {α : Type} (cap : Option Nat) (r : Nat) (x : Controller α) : Prop :=
  Prog.Outline Others (Passing cap r) (Sound cap r 0 0) x (fun _ => Sound cap r 0 0) fun _ => Sound cap r 0 0

theorem Stays.of_keeps {α : Type} {x : Controller α} (h : Prog.Keeps Others (Sound cap r 0 0) x) : Stays cap r x :=
  Prog.Keeps.outline h fun _ h => h.passing

theorem Stays.bind {α β : Type} {x : Controller α} {f : α → Controller β} (hx : Stays cap r x) (hf : ∀ a, Stays cap r (f a)) :
    Stays cap r (x >>= f) := Prog.Outline.bind others_refl hx hf

theorem Stays.forM {α : Type} {f : α → Controller Unit} (h : ∀ a, Stays cap r (f a)) (l : List α) : Stays cap r (l.forM f) := by
  induction l with
  | nil => exact .of_keeps (closed_sound.ret ())
  | cons a l ih => exact (h a).bind fun _ => ih

/-- The charge is not used yet. -/
def owing (core : Option (Stage × Bool × Option String)) : Prop := ∃ reply, core = some (.decide, true, reply)

/-- What is known of the journal comes from its core. -/
theorem core_of_get {w : World} {id : String} {p : Option (Stage × Bool × Option String) → Prop} (h : Journaled id p w)
    {rec : Journal} (hrec : w.state.recovery_in_flight.get? id = some rec) : p (some rec.core) := by
  have : (w.journal id).map Journal.core = some rec.core := by rw [World.journal, hrec]; rfl
  exact this ▸ h

section Steps
variable {E : Raised → World → Prop}

theorem kept_at (p : State → Prop) (hp : Undated p) :
    Prog.Kept Others (Passing cap r) fun w => Sound cap r decision turn w ∧ p w.state :=
  ⟨closed_sound.stable.and (stable_state p hp), fun _ h => h.1.passing⟩

theorem kept_journaled (id : String) (p : Option (Stage × Bool × Option String) → Prop) :
    Prog.Kept Others (Passing cap r) fun w => Sound cap r decision turn w ∧ Journaled id p w :=
  ⟨(closed_sound.and (framed_journaled id p)).stable, fun _ h => h.1.passing⟩

/-- What is read is still so, but for the graph. -/
theorem read : Prog.Outline Others (Passing cap r) (Sound cap r decision turn) Prog.get
    (fun w w' => Sound cap r decision turn w' ∧ w.state.Read w'.state) E :=
  .get ⟨closed_sound.stable, fun _ h => h.passing⟩ fun w w' hw h =>
    ⟨closed_sound.stable w w' hw h, stable_read w.state w w' (.refl _) h⟩

theorem read_at (p : State → Prop) (hp : Undated p) :
    Prog.Outline Others (Passing cap r) (fun w => Sound cap r decision turn w ∧ p w.state) Prog.get
      (fun w w' => Sound cap r decision turn w' ∧ (w.state.Read w'.state ∧ p w.state)) E :=
  .get (kept_at p hp) fun w w' hw h => ⟨closed_sound.stable w w' hw.1 h, stable_read w.state w w' (.refl _) h, hw.2⟩

/-- One assignment. -/
theorem assign_to (decision' turn' : Nat) {f : State → State} (p q : State → Prop)
    (h : ∀ state, Books cap decision turn r state.account → p state →
      Books cap decision' turn' r (f state).account ∧ q (f state))
    (hsame : ∀ state, Same state (f state)) (hp : Undated p)
    (hq : Undated q) :
    Prog.Outline Others (Passing cap r) (fun w => Sound cap r decision turn w ∧ p w.state) (assign f)
      (fun _ w => Sound cap r decision' turn' w ∧ q w.state) E :=
  .modify (kept_at p hp) (kept_at q hq) fun w hw =>
    ⟨hw.1.account (h w.state hw.1.live hw.2).1 (hsame w.state), (h w.state hw.1.live hw.2).2⟩

theorem assign_at {f : State → State} (p q : State → Prop)
    (h : ∀ state, Books cap decision turn r state.account → p state → Books cap decision turn r (f state).account ∧ q (f state))
    (hsame : ∀ state, Same state (f state)) (hp : Undated p)
    (hq : Undated q) :
    Prog.Outline Others (Passing cap r) (fun w => Sound cap r decision turn w ∧ p w.state) (assign f)
      (fun _ w => Sound cap r decision turn w ∧ q w.state) E := assign_to decision turn p q h hsame hp hq

theorem ret_at {α : Type} (p : State → Prop) (a : α) (hp : Undated p) :
    Prog.Outline Others (Passing cap r) (fun w => Sound cap r decision turn w ∧ p w.state) (return a : Controller α)
      (fun _ => Sound cap r decision turn) E :=
  .ret (kept_at p hp) fun _ h => h.1

/-- A node changes, the state does not. -/
theorem update_node_at (p : State → Prop) (n : NodeRef) {f : Node → Node}
    (hf : ∀ node, (f node).status = .disproved → node.status = .disproved) (hid : ∀ node, (f node).id = node.id)
    (hp : Undated p) :
    Prog.Outline Others (Passing cap r) (fun w => Sound cap r decision turn w ∧ p w.state) (update_node n f)
      (fun _ w => Sound cap r decision turn w ∧ p w.state) E :=
  .modify (kept_at p hp) (kept_at p hp) fun w hw => ⟨closed_sound.neutral _ _ (neutral_updateNode w n hf hid) hw.1, hw.2⟩

end Steps

/-! ### Journals -/

theorem stays_persist : Stays cap r persist := .of_keeps closed_sound.persist

/-- A new journal owes nothing, and one with a cached proof refutes nothing that was not decided. -/
theorem stays_enqueue (n : NodeRef) : Stays cap r (enqueue_recovery n) := by
  refine Prog.Outline.bind others_refl read fun w => .ite (fun hnew => ?_) fun _ =>
    ret_at w.state.Read () (undated_read _)
  have hnew : w.state.recovery_in_flight.get? n.id = none := Option.isNone_iff_eq_none.mp hnew
  let opened (state : State) : Prop :=
    state.recovery_in_flight.get? n.id = some {} ∧ state.negation_proofs = w.state.negation_proofs
  refine .bind others_refl (update_node_at w.state.Read n (fun _ h => by cases h) (fun _ => rfl) (undated_read _)) fun _ => ?_
  refine .bind others_refl (assign_at w.state.Read opened (fun state hbooks hread => ?_) (fun _ => same_books ..)
    (undated_read _) fun _ _ h => h) fun _ => ?_
  · obtain ⟨dag, rfl⟩ := hread
    exact ⟨hbooks.open_journal _, Dict.get?_set_self .., rfl⟩
  · refine .bind (Q := fun _ => Sound cap r 0 0) others_refl (.ite (fun hcached => ?_) fun _ =>
      ret_at opened () fun _ _ h => h) fun _ => stays_persist
    refine (assign_at opened (fun _ => True) (fun state hbooks hopened => ⟨?_, trivial⟩)
      (by intro; exact same_books ..) (fun _ _ h => h) fun _ _ h => h).mono
      (fun _ h => h) (fun _ _ h => h.1) fun _ _ h => h
    have hrec (rec : Journal) (h : state.recovery_in_flight.get? n.id = some rec) : rec = {} :=
      Option.some.inj (h.symm.trans hopened.1)
    refine hbooks.updateJournal (fun rec h ho => ?_) (fun rec h hu => ?_) (fun _ _ => rfl) fun rec h hr => Or.inr ?_
    · rw [Journal.owed] at ho
      simp at ho
    · rw [Journal.unanswered, Journal.owed] at hu
      simp at hu
    · rw [hopened.2]
      exact hcached.2

theorem stays_dismiss (id : String) : Stays cap r (dismiss_recovery id) := by
  refine Prog.Outline.bind others_refl read fun w => ?_
  refine .bind others_refl (assign_at w.state.Read (fun state => state.recovery_in_flight.get? id = none)
    (fun state hbooks _ => ⟨hbooks.close_journal id, ?_⟩) (fun _ => same_books ..) (undated_read _) fun _ _ h => h) fun _ => ?_
  · show (state.recovery_in_flight.erase id).get? id = none
    rw [Dict.get?_erase, if_pos rfl]
  refine .bind others_refl (assign_at (fun state => state.recovery_in_flight.get? id = none) (fun _ => True)
    (fun state hbooks hnone => ⟨hbooks.drop_proof ?_, trivial⟩) (fun _ => same_books ..) (fun _ _ h => h) fun _ _ h => h) fun _ => ?_
  · rw [hnone]
    rfl
  · exact .ite (fun _ => stays_persist.mono (fun _ h => h.1) (fun _ _ h => h) fun _ _ h => h) fun _ =>
      ret_at (fun _ => True) () fun _ _ h => h

/-! ### The charge -/

/-- The limits of a life do not exceed those of the account. -/
def Within (cap : Option Nat) (config : Config) : Prop :=
  ∀ m, cap = some m → ∃ c, config.max_decompositions = some c ∧ c ≤ m

/-- A program that stays within a sound assertion. -/
theorem sound_within {α : Type} {P A : World → Prop} {B : α → World → Prop} {x : Controller α}
    (h : Prog.Outline Others A P x B fun _ => A) (hA : ∀ w, A w → Sound cap r decision turn w) :
    Prog.Outline Others (Passing cap r) P x B fun _ => Sound cap r decision turn :=
  (outline_within h fun w hw => (hA w hw).passing).mono (fun _ h => h) (fun _ _ h => h) fun _ w h => hA w h

theorem closed_journaled (cap : Option Nat) (r decision turn : Nat) (id : String) (p : Option (Stage × Bool × Option String) → Prop) :
    Closed fun w => Sound cap r decision turn w ∧ Journaled id p w := closed_sound.and (framed_journaled id p)

/-- A closed assertion about a journal is kept. -/
theorem journaled_of_keeps {α : Type} {id : String} {p : Option (Stage × Bool × Option String) → Prop} {x : Controller α}
    (h : Prog.Keeps Others (fun w => Sound cap r decision turn w ∧ Journaled id p w) x) :
    Prog.Outline Others (Passing cap r) (fun w => Sound cap r decision turn w ∧ Journaled id p w) x
      (fun _ w => Sound cap r decision turn w ∧ Journaled id p w) fun _ => Sound cap r decision turn :=
  sound_within h fun _ h => h.1

/-- What is charged is within the limits, and the journal has it. -/
theorem charge_spec {config : Config} (hconfig : Within cap config) (n : NodeRef) {rec : Journal} (hstage : rec.stage = .decide) :
    Prog.Outline Others (Passing cap r) (fun w => Sound cap r 0 0 w ∧ w.state.recovery_in_flight.get? n.id = some rec)
      (charge config n rec) (fun charged w => Sound cap r 0 0 w ∧ (charged = true → Journaled n.id owing w))
      fun _ => Sound cap r 0 0 := by
  let open_ (state : State) : Prop := state.recovery_in_flight.get? n.id = some rec
  have hopen : Undated open_ := fun _ _ h => h
  refine .ite (fun hcharged => .ret (kept_at open_ hopen) fun w hw => ⟨hw.1, fun _ => ⟨rec.decision_result, ?_⟩⟩) fun _ => ?_
  · show (w.state.recovery_in_flight.get? n.id).map Journal.core = _
    rw [hw.2, Option.map_some, Journal.core, hstage, hcharged]
  refine .bind others_refl (read_at open_ hopen) fun w => ?_
  have hread : Undated fun state => w.state.Read state ∧ open_ w.state := fun state dag h => ⟨undated_read w.state state dag h.1, h.2⟩
  refine .ite (fun _ => ?_) fun hleft => ?_
  · refine .bind others_refl (update_node_at (fun state => w.state.Read state ∧ open_ w.state) n (fun _ h => h) (fun _ => rfl)
      hread) fun _ => ?_
    refine .bind others_refl (assign_at (fun state => w.state.Read state ∧ open_ w.state) (fun _ => True)
      (fun state hbooks _ => ⟨hbooks.updateJournal ?_ ?_ ?_ ?_, trivial⟩) (fun _ => same_books ..) hread fun _ _ h => h) fun _ => ?_
    · exact fun rec _ h => by simp [Journal.owed] at h
    · exact fun rec _ h => by simp [Journal.unanswered, Journal.owed] at h
    · exact fun _ _ => rfl
    · exact fun rec _ h => by simp [Journal.refuting] at h
    · exact .bind others_refl (stays_persist.mono (fun _ h => h.1) (fun _ _ h => h) fun _ _ h => h) fun _ =>
        .ret ⟨closed_sound.stable, fun _ h => h.passing⟩ fun _ h => ⟨h, fun hfalse => absurd hfalse Bool.false_ne_true⟩
  · have hcap (m : Nat) (hm : cap = some m) : w.state.decompositions < m := by
      obtain ⟨c, hc, hle⟩ := hconfig m hm
      rw [exhausted, hc, Option.any_some, decide_eq_true_eq, not_le] at hleft
      omega
    refine .bind others_refl (assign_to 1 1 (fun state => w.state.Read state ∧ open_ w.state) open_
      (fun state hbooks hread => ?_) (fun _ => same_books ..) hread hopen) fun _ => ?_
    · obtain ⟨⟨dag, rfl⟩, hopened⟩ := hread
      exact ⟨hbooks.pay hcap, hopened⟩
    refine .bind others_refl (update_node_at open_ n (fun _ h => h) (fun _ => rfl) hopen) fun _ => ?_
    refine .bind others_refl (assign_to 0 0 open_ (fun state => owing ((state.recovery_in_flight.get? n.id).map Journal.core))
      (fun state hbooks hopened => ⟨hbooks.charge hopened hstage, rec.decision_result, ?_⟩) (fun _ => same_books ..) hopen
      fun _ _ h => h) fun _ => ?_
    · rw [get?_updateJournal_self, hopened]
      exact congrArg (fun stage => some (stage, true, rec.decision_result)) hstage
    · exact .bind others_refl (journaled_of_keeps (closed_journaled cap r 0 0 n.id owing).persist) fun _ =>
        .ret (kept_journaled n.id owing) fun w hw => ⟨hw.1, fun _ => hw.2⟩

end LeanFlow.Recovery
