import LeanFlow.General.Count
import LeanFlow.Recovery.Lives

/-! The accounts of recovery.

What a state says about its charges comes down to a few figures: what was charged, what was decided, what
orchestrators and refutations were bought. `Books` is the balance between them. Everything else a
controller does leaves the figures as they are. -/
namespace LeanFlow.Recovery
open General Goals Jobs

/-! ### Figures -/

/-- A session that ran to its end; the others are resumed or replaced. -/
def finished : JobStatus → Bool
  | .running | .queued | .resume_pending | .provider_error | .environment_error | .error | .source_conflict | .interrupted
  | .context_limit | .stale => false
  | _ => true

/-- A session that may be resumed did not. -/
theorem unfinished_not_finished {status : JobStatus} (h : status.unfinished = true) : finished status = false := by
  cases status <;> first | rfl | cases h

namespace Journal

/-- Charged, and the decision is not recorded yet. -/
def owed (rec : Journal) : Bool := rec.stage = .decide && rec.charged

def unanswered (rec : Journal) : Bool := rec.owed && rec.decision_result.isNone

def unknown (rec : Journal) : Bool :=
  match rec.stage with
  | .other _ => true
  | _ => false

def refuting (rec : Journal) : Bool := rec.stage = .negate

end Journal

/-- The wording asks for a decision. -/
def Purpose.decides : Purpose → Bool
  | .decision _ => true
  | _ => false

def Job.decided (job : Job) : Bool := (job.role = .orchestrator && job.purpose.decides) && finished job.status

def Job.refuted (id : String) (job : Job) : Bool := (job.role = .negation && job.node_id = id) && finished job.status

/-- Of such a job the end is accounted for. -/
def JobKey.accounted : JobKey → Bool
  | .prompt role purpose => role = .orchestrator && purpose.decides
  | .node role _ => role = .negation

theorem Job.prompt_of_key {job : Job} {role : Role} {purpose : Purpose} (h : job.key = .prompt role purpose) :
    job.role = role ∧ job.purpose = purpose := by
  unfold Job.key job_key at h
  split at h
  all_goals first
    | exact JobKey.prompt.inj h
    | cases h

theorem Job.node_of_key {job : Job} {role : Role} {id : String} (h : job.key = .node role id) :
    job.role = role ∧ job.node_id = id := by
  unfold Job.key job_key at h
  split at h
  all_goals first
    | exact JobKey.node.inj h
    | cases h

/-- What is found by such a key is accounted for by it. -/
theorem Job.accounted_key (job : Job) :
    job.key.accounted = ((job.role = .orchestrator && job.purpose.decides) || job.role = .negation) := by
  unfold Job.key job_key
  split
  all_goals
    rename_i hrole
    simp [JobKey.accounted, hrole]

theorem Job.decided_of_spare {job : Job} (h : job.key.accounted = false) : job.decided = false := by
  rw [Job.accounted_key, Bool.or_eq_false_iff] at h
  rw [Job.decided, h.1, Bool.false_and]

theorem Job.refuted_of_spare {job : Job} (h : job.key.accounted = false) (id : String) : job.refuted id = false := by
  rw [Job.accounted_key, Bool.or_eq_false_iff] at h
  rw [Job.refuted, h.2, Bool.false_and, Bool.false_and]

def Record.negates (id : String) (record : Record) : Bool := record.node_id = id && record.decision.action = "negate"

/-- The figures; those of refutations are kept by obligation. -/
structure Account where
  paid : Nat
  entries : Nat
  owed : Nat
  turns : Nat
  unanswered : Nat
  unknown : Nat
  bought : String → Nat
  allowed : String → Nat
  /-- A refutation was decided and has no outcome. -/
  unsettled : String → Bool

def State.account (state : State) : Account where
  paid := state.decompositions
  entries := state.recovery_decisions.length
  owed := state.recovery_in_flight.count Journal.owed
  turns := state.jobs.countP Job.decided
  unanswered := state.recovery_in_flight.count Journal.unanswered
  unknown := state.recovery_in_flight.count Journal.unknown
  bought id := state.jobs.countP (Job.refuted id)
  allowed id := state.recovery_decisions.countP (Record.negates id)
  unsettled id := (state.recovery_in_flight.get? id).any Journal.refuting && (state.negation_proofs.get? id).isNone

/-! ### Balance -/

/-- What was decided or asked does not exceed what was charged, up to a slack; `decision` and `turn` are
charges that are not used yet. -/
structure Books (cap : Option Nat) (decision turn slack : Nat) (account : Account) : Prop where
  entries : account.entries + account.owed + decision ≤ account.paid + slack
  turns : account.turns + account.unanswered + turn ≤ account.paid + slack
  refutations : ∀ id, account.bought id + (account.unsettled id).toNat ≤ account.allowed id
  known : account.unknown = 0
  capped : ∀ m, cap = some m → account.paid ≤ m

variable {cap : Option Nat} {decision turn slack : Nat} {state : State} {id : String}

theorem Books.mono {decision' turn' slack' : Nat} {account : Account} (h : Books cap decision turn slack account)
    (hd : decision' + slack ≤ decision + slack') (ht : turn' + slack ≤ turn + slack') :
    Books cap decision' turn' slack' account where
  entries := by have := h.entries; omega
  turns := by have := h.turns; omega
  refutations := h.refutations
  known := h.known
  capped := h.capped

/-- A fresh run owes nothing. -/
theorem books_fresh (dag : Dag) : Books cap 0 0 0 (State.account { dag }) :=
  ⟨le_rfl, le_rfl, fun _ => le_rfl, rfl, fun _ _ => Nat.zero_le _⟩

/-! ### One journal -/

/-- The state without the journal of one obligation. -/
def State.without (id : String) (state : State) : State :=
  { state with recovery_in_flight := state.recovery_in_flight.erase id }

theorem without_updateJournal (id : String) (f : Journal → Journal) (state : State) :
    (state.updateJournal id f).without id = state.without id := by
  simp only [State.without, State.updateJournal, Dict.erase_mapValues]

theorem account_owed (id : String) (state : State) : state.account.owed =
    (state.without id).account.owed + ((state.recovery_in_flight.get? id).any Journal.owed).toNat :=
  Dict.count_eq_erase ..

theorem account_unanswered (id : String) (state : State) : state.account.unanswered =
    (state.without id).account.unanswered + ((state.recovery_in_flight.get? id).any Journal.unanswered).toNat :=
  Dict.count_eq_erase ..

theorem account_unknown (id : String) (state : State) : state.account.unknown =
    (state.without id).account.unknown + ((state.recovery_in_flight.get? id).any Journal.unknown).toNat :=
  Dict.count_eq_erase ..

theorem unsettled_without (id key : String) (state : State) :
    (state.without id).account.unsettled key = (key ≠ id && state.account.unsettled key) := by
  show (((state.recovery_in_flight.erase id).get? key).any Journal.refuting && (state.negation_proofs.get? key).isNone) = _
  rw [Dict.get?_erase]
  by_cases hkey : key = id
  · rw [if_pos hkey, decide_eq_false (not_not.mpr hkey)]
    rfl
  · rw [if_neg hkey, decide_eq_true hkey, Bool.true_and]
    rfl

/-- A journal that is closed owes nothing. -/
theorem Books.without (h : Books cap decision turn slack state.account) (id : String) :
    Books cap decision turn slack (state.without id).account where
  entries := by
    have := h.entries
    rw [account_owed id] at this
    exact (Nat.add_le_add_right (Nat.add_le_add_left (Nat.le_add_right ..) _) _).trans this
  turns := by
    have := h.turns
    rw [account_unanswered id] at this
    exact (Nat.add_le_add_right (Nat.add_le_add_left (Nat.le_add_right ..) _) _).trans this
  refutations key := by
    refine (Nat.add_le_add_left ?_ _).trans (h.refutations key)
    rw [unsettled_without]
    cases decide (key ≠ id) <;> cases state.account.unsettled key <;> decide
  known := by
    have := h.known
    rw [account_unknown id] at this
    exact (Nat.add_eq_zero_iff.mp this).1
  capped := h.capped

/-- The charge of an owing journal is free once its decision is taken off it. -/
theorem Books.release (h : Books cap decision turn slack state.account)
    (howed : (state.recovery_in_flight.get? id).any Journal.owed = true) :
    Books cap (decision + 1) turn slack (state.without id).account :=
  { h.without id with
    entries := by
      have := h.entries
      rw [account_owed id, howed] at this
      have hentries : (state.without id).account.entries = state.account.entries := rfl
      have hpaid : (state.without id).account.paid = state.account.paid := rfl
      rw [hentries, hpaid]
      simp only [Bool.toNat_true] at this
      omega }

/-- What a journal adds to the others. -/
theorem Books.back (h : Books cap decision turn slack (state.without id).account)
    (hknown : (state.recovery_in_flight.get? id).any Journal.unknown = false)
    (hrefuting : (state.recovery_in_flight.get? id).any Journal.refuting = true → (state.negation_proofs.get? id).isNone = true →
      state.account.bought id + 1 ≤ state.account.allowed id) {n : Nat}
    (howed : ((state.recovery_in_flight.get? id).any Journal.owed).toNat ≤ n) :
    Books cap decision turn (slack + n) state.account where
  entries := by
    have hentries := h.entries
    rw [account_owed id]
    show state.recovery_decisions.length + _ + _ ≤ state.decompositions + _
    change state.recovery_decisions.length + _ + _ ≤ state.decompositions + _ at hentries
    omega
  turns := by
    have hturns := h.turns
    have hle : ((state.recovery_in_flight.get? id).any Journal.unanswered).toNat ≤ n := by
      refine le_trans ?_ howed
      cases state.recovery_in_flight.get? id with
      | none => exact le_rfl
      | some rec =>
        rw [Option.any_some, Option.any_some, Journal.unanswered]
        cases rec.owed with
        | false => exact le_rfl
        | true => exact Bool.toNat_le _
    rw [account_unanswered id]
    show state.jobs.countP _ + _ + _ ≤ state.decompositions + _
    change state.jobs.countP _ + _ + _ ≤ state.decompositions + _ at hturns
    omega
  refutations key := by
    by_cases hkey : key = id
    · subst hkey
      have hbought := h.refutations key
      show _ + ((state.recovery_in_flight.get? key).any Journal.refuting && (state.negation_proofs.get? key).isNone).toNat ≤ _
      cases hr : (state.recovery_in_flight.get? key).any Journal.refuting with
      | false => exact (Nat.le_add_right ..).trans hbought
      | true =>
        cases hp : (state.negation_proofs.get? key).isNone with
        | false => exact (Nat.le_add_right ..).trans hbought
        | true => exact hrefuting hr hp
    · have hbought := h.refutations key
      rw [unsettled_without, decide_eq_true hkey, Bool.true_and] at hbought
      exact hbought
  known := by
    rw [account_unknown id, h.known, hknown]
    rfl
  capped := h.capped

/-! ### What the figures do not see -/

/-- The part of a journal that is accounted for. -/
def Journal.core (rec : Journal) : Stage × Bool × Option String := (rec.stage, rec.charged, rec.decision_result)

theorem Journal.owed_congr {rec rec' : Journal} (h : rec'.core = rec.core) : rec'.owed = rec.owed := by
  simp only [core, Prod.mk.injEq] at h
  simp only [owed, h]

theorem Journal.unanswered_congr {rec rec' : Journal} (h : rec'.core = rec.core) : rec'.unanswered = rec.unanswered := by
  rw [unanswered, unanswered, owed_congr h, (Prod.mk.inj (Prod.mk.inj h).2).2]

theorem Journal.unknown_congr {rec rec' : Journal} (h : rec'.core = rec.core) : rec'.unknown = rec.unknown := by
  rw [unknown, unknown, (Prod.mk.inj h).1]

theorem Journal.refuting_congr {rec rec' : Journal} (h : rec'.core = rec.core) : rec'.refuting = rec.refuting := by
  rw [refuting, refuting, (Prod.mk.inj h).1]

theorem get?_updateJournal (id key : String) (f : Journal → Journal) (state : State) :
    (state.updateJournal id f).recovery_in_flight.get? key =
      (state.recovery_in_flight.get? key).map fun rec => if key = id then f rec else rec :=
  Dict.get?_mapValues ..

/-- Fields of a journal that are not accounted for. -/
theorem account_updateJournal {f : Journal → Journal} (hf : ∀ rec, (f rec).core = rec.core) (id : String) (state : State) :
    (state.updateJournal id f).account = state.account := by
  have hcore (key : String) (rec : Journal) : (if key = id then f rec else rec).core = rec.core := by
    split
    · exact hf rec
    · rfl
  simp only [State.account, Account.mk.injEq]
  refine ⟨rfl, rfl, Dict.count_mapValues _ _ fun key rec => Journal.owed_congr (hcore key rec), rfl,
    Dict.count_mapValues _ _ fun key rec => Journal.unanswered_congr (hcore key rec),
    Dict.count_mapValues _ _ fun key rec => Journal.unknown_congr (hcore key rec), rfl, rfl, ?_⟩
  funext key
  rw [get?_updateJournal]
  cases state.recovery_in_flight.get? key with
  | none => rfl
  | some rec =>
    rw [Option.map_some, Option.any_some, Journal.refuting_congr (hcore key rec)]
    rfl

/-! ### Changes of one journal -/

theorem any_map_le {p : Journal → Bool} {f : Journal → Journal} {o : Option Journal}
    (h : ∀ rec, o = some rec → p (f rec) = true → p rec = true) : ((o.map f).any p).toNat ≤ (o.any p).toNat := by
  cases o with
  | none => exact le_rfl
  | some rec =>
    rw [Option.map_some, Option.any_some, Option.any_some]
    cases hp : p (f rec) with
    | false => exact Nat.zero_le _
    | true => exact (h rec rfl hp).symm ▸ le_rfl

theorem get?_updateJournal_self (id : String) (f : Journal → Journal) (state : State) :
    (state.updateJournal id f).recovery_in_flight.get? id = (state.recovery_in_flight.get? id).map f := by
  rw [get?_updateJournal]
  exact congrArg (Option.map · _) (funext fun rec => if_pos rfl)

/-- What an assignment leaves in the journal. -/
theorem exists_of_core {f : Journal → Journal} {c : Stage × Bool × Option String}
    (h : ((state.updateJournal id f).recovery_in_flight.get? id).map Journal.core = some c) :
    ∃ rec, state.recovery_in_flight.get? id = some rec ∧ (f rec).core = c := by
  rw [get?_updateJournal_self, Option.map_map] at h
  exact Option.map_eq_some_iff.mp h

/-- A change that adds nothing to what is owed. -/
theorem Books.updateJournal (h : Books cap decision turn slack state.account) {f : Journal → Journal}
    (howed : ∀ rec, state.recovery_in_flight.get? id = some rec → (f rec).owed = true → rec.owed = true)
    (hunanswered : ∀ rec, state.recovery_in_flight.get? id = some rec → (f rec).unanswered = true → rec.unanswered = true)
    (hunknown : ∀ rec, state.recovery_in_flight.get? id = some rec → (f rec).unknown = false)
    (hrefuting : ∀ rec, state.recovery_in_flight.get? id = some rec → (f rec).refuting = true →
      rec.refuting = true ∨ (state.negation_proofs.get? id).isSome = true) :
    Books cap decision turn slack (state.updateJournal id f).account where
  entries := by
    refine le_trans (Nat.add_le_add_right (Nat.add_le_add_left ?_ _) _) h.entries
    rw [account_owed id, account_owed id state, without_updateJournal, get?_updateJournal_self]
    exact Nat.add_le_add_left (any_map_le howed) _
  turns := by
    refine le_trans (Nat.add_le_add_right (Nat.add_le_add_left ?_ _) _) h.turns
    rw [account_unanswered id, account_unanswered id state, without_updateJournal, get?_updateJournal_self]
    exact Nat.add_le_add_left (any_map_le hunanswered) _
  refutations key := by
    refine le_trans (Nat.add_le_add_left ?_ _) (h.refutations key)
    show (((state.updateJournal id f).recovery_in_flight.get? key).any Journal.refuting && _).toNat ≤
      ((state.recovery_in_flight.get? key).any Journal.refuting && (state.negation_proofs.get? key).isNone).toNat
    show (_ && (state.negation_proofs.get? key).isNone).toNat ≤ _
    by_cases hkey : key = id
    · subst hkey
      rw [get?_updateJournal_self]
      cases hproof : state.negation_proofs.get? key with
      | some proof => rw [Option.isNone_some, Bool.and_false, Bool.and_false]
      | none =>
        rw [Option.isNone_none, Bool.and_true, Bool.and_true]
        refine any_map_le fun rec hrec hr => (hrefuting rec hrec hr).resolve_right ?_
        rw [hproof]
        exact Bool.false_ne_true
    · rw [get?_updateJournal]
      refine le_of_eq (congrArg Bool.toNat (congrArg (· && _) ?_))
      cases state.recovery_in_flight.get? key with
      | none => rfl
      | some rec => rw [Option.map_some, if_neg hkey]
  known := by
    have hknown := h.known
    rw [account_unknown id] at hknown ⊢
    rw [without_updateJournal, (Nat.add_eq_zero_iff.mp hknown).1, get?_updateJournal_self]
    cases hrec : state.recovery_in_flight.get? id with
    | none => rfl
    | some rec =>
      rw [Option.map_some, Option.any_some, hunknown rec hrec]
      rfl
  capped := h.capped

/-- A new journal owes nothing. -/
theorem Books.open_journal (h : Books cap decision turn slack state.account) (id : String) :
    Books cap decision turn slack (State.account { state with recovery_in_flight := state.recovery_in_flight.set id {} }) := by
  have hwithout : ({ state with recovery_in_flight := state.recovery_in_flight.set id {} } : State).without id = state.without id := by
    simp only [State.without, Dict.erase_set]
  have hothers : Books cap decision turn slack
      (State.without id { state with recovery_in_flight := state.recovery_in_flight.set id {} }).account := hwithout ▸ h.without id
  have hback := hothers.back (n := 0)
  simp only [Dict.get?_set_self, Option.any_some] at hback
  exact hback rfl (fun hr => absurd hr Bool.false_ne_true) le_rfl

/-- A journal is closed. -/
theorem Books.close_journal (h : Books cap decision turn slack state.account) (id : String) :
    Books cap decision turn slack (State.account { state with recovery_in_flight := state.recovery_in_flight.erase id }) :=
  h.without id

/-- One more is charged. -/
theorem Books.pay (h : Books cap decision turn slack state.account) (hcap : ∀ m, cap = some m → state.decompositions < m) :
    Books cap (decision + 1) (turn + 1) slack (State.account { state with decompositions := state.decompositions + 1 }) where
  entries := by
    have := h.entries
    change state.recovery_decisions.length + _ + _ ≤ state.decompositions + _ at this
    show state.recovery_decisions.length + state.account.owed + _ ≤ state.decompositions + 1 + _
    omega
  turns := by
    have := h.turns
    change _ ≤ state.decompositions + _ at this
    show state.account.turns + state.account.unanswered + _ ≤ state.decompositions + 1 + _
    omega
  refutations := h.refutations
  known := h.known
  capped := hcap

/-- The charge goes to the journal. -/
theorem Books.charge (h : Books cap 1 1 slack state.account) {rec : Journal} (hrec : state.recovery_in_flight.get? id = some rec)
    (hstage : rec.stage = .decide) :
    Books cap 0 0 slack (state.updateJournal id fun rec => { rec with charged := true }).account := by
  have hcharged : (state.updateJournal id fun rec => { rec with charged := true }).recovery_in_flight.get? id =
      some { rec with charged := true } := by
    rw [get?_updateJournal_self, hrec]
    rfl
  have hothers : Books cap 1 1 slack ((state.updateJournal id fun rec => { rec with charged := true }).without id).account :=
    (without_updateJournal id _ state).symm ▸ h.without id
  have hback := hothers.back (n := 1)
  simp only [hcharged, Option.any_some, Journal.unknown, Journal.refuting, hstage] at hback
  exact (hback trivial (fun hr => by simp at hr) (Bool.toNat_le _)).mono (by omega) (by omega)

/-! ### Proofs of negations -/

/-- A proof, or the mark that there is none. -/
theorem Books.keep_proof (h : Books cap decision turn slack state.account) (id proof : String) :
    Books cap decision turn slack (State.account { state with negation_proofs := state.negation_proofs.set id proof }) :=
  { h with
    refutations := fun key => by
      refine le_trans (Nat.add_le_add_left ?_ _) (h.refutations key)
      show ((state.recovery_in_flight.get? key).any Journal.refuting && ((state.negation_proofs.set id proof).get? key).isNone).toNat ≤
        ((state.recovery_in_flight.get? key).any Journal.refuting && (state.negation_proofs.get? key).isNone).toNat
      rw [Dict.get?_set]
      split
      · rw [Option.isNone_some, Bool.and_false]
        exact Nat.zero_le _
      · exact le_rfl }

/-- The outcome was used. -/
theorem Books.drop_proof (h : Books cap decision turn slack state.account) {id : String}
    (hsettled : (state.recovery_in_flight.get? id).any Journal.refuting = false) :
    Books cap decision turn slack (State.account { state with negation_proofs := state.negation_proofs.erase id }) :=
  { h with
    refutations := fun key => by
      refine le_trans (Nat.add_le_add_left ?_ _) (h.refutations key)
      show ((state.recovery_in_flight.get? key).any Journal.refuting && ((state.negation_proofs.erase id).get? key).isNone).toNat ≤
        ((state.recovery_in_flight.get? key).any Journal.refuting && (state.negation_proofs.get? key).isNone).toNat
      rw [Dict.get?_erase]
      split
      · rename_i hkey
        rw [hkey, hsettled, Bool.false_and]
        exact Nat.zero_le _
      · exact le_rfl }

/-! ### Jobs -/

/-- Another job is opened; none is finished by that. -/
theorem account_open_job (role : Role) (purpose : Purpose) (node_id : String) (revision : Nat) (resumed : Option Nat)
    (state : State) : (state.open_job role purpose node_id revision resumed).account = state.account := by
  have hunfinished (p : Job → Bool) (hp : ∀ job, finished job.status = false → p job = false) :
      (state.open_job role purpose node_id revision resumed).jobs.countP p = state.jobs.countP p := by
    unfold State.open_job
    split
    · rename_i ref hresumed
      refine countP_modify_same p _ fun job hjob => ?_
      have hpending : finished job.status = false := by
        have hresumable := (Option.filter_eq_some_iff.mp hresumed).2
        rw [State.resumable, hjob, Option.any_some] at hresumable
        rw [(of_decide_eq_true hresumable).1]
        rfl
      rw [hp job hpending, hp _ rfl]
    · rw [List.countP_append, List.countP_singleton, hp _ rfl]
      rfl
  have hrest : (state.open_job role purpose node_id revision resumed).recovery_in_flight = state.recovery_in_flight ∧
      (state.open_job role purpose node_id revision resumed).decompositions = state.decompositions ∧
      (state.open_job role purpose node_id revision resumed).recovery_decisions = state.recovery_decisions ∧
      (state.open_job role purpose node_id revision resumed).negation_proofs = state.negation_proofs := by
    unfold State.open_job
    split <;> exact ⟨rfl, rfl, rfl, rfl⟩
  simp only [State.account, Account.mk.injEq, hrest.1, hrest.2.1, hrest.2.2.1, hrest.2.2.2]
  refine ⟨trivial, trivial, trivial, hunfinished _ fun job hjob => ?_, trivial, trivial, ?_, trivial, trivial⟩
  · rw [Job.decided, hjob, Bool.and_false]
  · funext key
    exact hunfinished _ fun job hjob => by rw [Job.refuted, hjob, Bool.and_false]

/-- A change of a job that leaves what is counted. -/
theorem account_updateJob {ref : Nat} {f : Job → Job} {state : State}
    (hdecided : ∀ job, state.jobs[ref]? = some job → (f job).decided = job.decided)
    (hrefuted : ∀ id job, state.jobs[ref]? = some job → (f job).refuted id = job.refuted id) :
    (state.updateJob ref f).account = state.account := by
  simp only [State.account, State.updateJob, Account.mk.injEq, true_and, and_true]
  refine ⟨countP_modify_same _ _ hdecided, ?_⟩
  funext key
  exact countP_modify_same _ _ (hrefuted key)

/-- An interrupted life finished no session that it did not finish. -/
theorem account_restarted (dag : Dag) (state : State) :
    ({ state with jobs := state.jobs.map (Job.restarted dag) } : State).account = state.account := by
  have hcount (p : Job → Bool) (hp : ∀ job, finished job.status = false → p job = false)
      (hsame : ∀ (job : Job) (status : JobStatus), finished job.status = false → finished status = false →
        p { job with status } = p job) : (state.jobs.map (Job.restarted dag)).countP p = state.jobs.countP p := by
    rw [List.countP_map]
    refine List.countP_congr fun job _ => ?_
    show p (job.restarted dag) = true ↔ _
    suffices h : p (job.restarted dag) = p job by rw [h]
    unfold Job.restarted
    split
    · rename_i hstatus
      have hunfinished : finished job.status = false := unfinished_not_finished hstatus
      dsimp only
      split_ifs <;> exact hsame job _ hunfinished rfl
    · rfl
  simp only [State.account, Account.mk.injEq, true_and, and_true]
  refine ⟨hcount _ (fun job hjob => ?_) fun job status hjob hstatus => ?_, ?_⟩
  · rw [Job.decided, hjob, Bool.and_false]
  · simp only [Job.decided, hjob, hstatus]
  · funext key
    refine hcount _ (fun job hjob => ?_) fun job status hjob hstatus => ?_
    · rw [Job.refuted, hjob, Bool.and_false]
    · simp only [Job.refuted, hjob, hstatus]

/-! ### Sessions and stages -/

/-- A session that did not run to its end is not counted. -/
theorem Books.finish_unfinished (h : Books cap decision turn slack state.account) {status : JobStatus}
    (hstatus : finished status = false) (ref : Nat) :
    Books cap decision turn slack (state.updateJob ref fun job => { job with status }).account := by
  have hcount (p : Job → Bool) (hp : ∀ job, finished job.status = false → p job = false) :
      (state.jobs.modify ref fun job => { job with status }).countP p ≤ state.jobs.countP p := by
    cases hjob : state.jobs[ref]? with
    | none => rw [List.modify_eq_self (List.getElem?_eq_none_iff.mp hjob)]
    | some job =>
      have hmodify := countP_modify p (fun job => { job with status }) hjob
      rw [hp { job with status } hstatus] at hmodify
      simp only [Bool.toNat_false] at hmodify
      omega
  refine { h with turns := le_trans ?_ h.turns, refutations := fun key => le_trans ?_ (h.refutations key) }
  · exact Nat.add_le_add_right (Nat.add_le_add_right (hcount _ fun job hjob => by rw [Job.decided, hjob, Bool.and_false]) _) _
  · exact Nat.add_le_add_right (hcount _ fun job hjob => by rw [Job.refuted, hjob, Bool.and_false]) _

/-- The end of a decision uses its turn. -/
theorem Books.finish_decision (h : Books cap decision (turn + 1) slack state.account) {ref : Nat} {job : Job}
    (hjob : state.jobs[ref]? = some job) (hrole : job.role = .orchestrator) (status : JobStatus) :
    Books cap decision turn slack (state.updateJob ref fun job => { job with status }).account := by
  refine { h with turns := ?_, refutations := fun key => ?_ }
  · have hturns := h.turns
    have hmodify := countP_modify Job.decided (fun job => { job with status }) hjob
    have hone := Bool.toNat_le (Job.decided { job with status })
    show (state.jobs.modify ref _).countP Job.decided + state.account.unanswered + turn ≤ state.account.paid + slack
    change state.jobs.countP Job.decided + state.account.unanswered + (turn + 1) ≤ state.account.paid + slack at hturns
    omega
  · refine le_trans (le_of_eq (congrArg (· + _) ?_)) (h.refutations key)
    refine countP_modify_same _ _ fun job' hjob' => ?_
    obtain rfl : job = job' := Option.some.inj (hjob.symm.trans hjob')
    simp [Job.refuted, hrole]

/-- The end of a refutation whose outcome is kept. -/
theorem Books.finish_refutation (h : Books cap decision turn slack state.account) {ref : Nat} {job : Job}
    (hjob : state.jobs[ref]? = some job) (hrole : job.role = .negation) (hid : job.node_id = id)
    (hkept : (state.negation_proofs.get? id).isSome = true)
    (hcredit : state.account.bought id + 1 ≤ state.account.allowed id) (status : JobStatus) :
    Books cap decision turn slack (state.updateJob ref fun job => { job with status }).account := by
  refine { h with turns := ?_, refutations := fun key => ?_ }
  · refine le_trans (le_of_eq (congrArg (· + _ + _) ?_)) h.turns
    refine countP_modify_same _ _ fun job' hjob' => ?_
    obtain rfl : job = job' := Option.some.inj (hjob.symm.trans hjob')
    simp [Job.decided, hrole]
  · by_cases hkey : key = id
    · subst hkey
      have hmodify := countP_modify (Job.refuted key) (fun job => { job with status }) hjob
      have hone := Bool.toNat_le (Job.refuted key { job with status })
      have hsettled : state.account.unsettled key = false := by
        show (_ && (state.negation_proofs.get? key).isNone) = false
        rw [Option.isNone_eq_false_iff.mpr hkept, Bool.and_false]
      show (state.jobs.modify ref _).countP (Job.refuted key) + (state.account.unsettled key).toNat ≤ state.account.allowed key
      change state.jobs.countP (Job.refuted key) + 1 ≤ _ at hcredit
      rw [hsettled, Bool.toNat_false]
      omega
    · refine le_trans (le_of_eq (congrArg (· + _) ?_)) (h.refutations key)
      refine countP_modify_same _ _ fun job' hjob' => ?_
      obtain rfl : job = job' := Option.some.inj (hjob.symm.trans hjob')
      simp [Job.refuted, hid, Ne.symm hkey]

/-- The answer is in the journal before its session has ended. -/
theorem Books.answer (h : Books cap decision turn slack state.account)
    (hcore : (state.recovery_in_flight.get? id).map Journal.core = some (.decide, true, none)) (reply : String) :
    Books cap decision (turn + 1) slack
      (state.updateJournal id fun rec => { rec with decision_result := some reply }).account := by
  obtain ⟨rec, hrec, hcore⟩ := Option.map_eq_some_iff.mp hcore
  simp only [Journal.core, Prod.mk.injEq] at hcore
  have hsame : Books cap decision turn slack (state.updateJournal id fun rec => { rec with decision_result := some reply }).account :=
    h.updateJournal (fun _ _ h => h) (fun rec _ h => by simp [Journal.unanswered] at h) (fun rec' hrec' => by
      obtain rfl := Option.some.inj (hrec.symm.trans hrec')
      simp [Journal.unknown, hcore.1]) fun _ _ h => Or.inl h
  refine { hsame with turns := ?_ }
  have hturns := h.turns
  rw [account_unanswered id, hrec] at hturns
  rw [account_unanswered id, without_updateJournal, get?_updateJournal_self, hrec]
  simp only [Option.map_some, Option.any_some, Journal.unanswered, Journal.owed, hcore.1, hcore.2.1, hcore.2.2] at hturns ⊢
  simp only [Option.isNone_some, Option.isNone_none, Bool.and_false, Bool.and_true, decide_true, Bool.toNat_false,
    Bool.toNat_true] at hturns ⊢
  show state.account.turns + _ + _ ≤ state.account.paid + _
  omega

/-- The stage of a journal is known. -/
theorem Books.known_journal (h : Books cap decision turn slack state.account) {rec : Journal}
    (hrec : state.recovery_in_flight.get? id = some rec) : rec.unknown = false := by
  have hknown := h.known
  rw [account_unknown id, hrec, Option.any_some] at hknown
  exact Bool.toNat_eq_zero.mp (Nat.add_eq_zero_iff.mp hknown).2

/-- A journal that is not charged owes nothing. -/
theorem Books.uncharged (h : Books cap decision turn slack state.account) {f : Journal → Journal}
    (hf : ∀ rec, state.recovery_in_flight.get? id = some rec →
      (f rec).charged = false ∧ ((f rec).stage = rec.stage ∨ (f rec).stage = .decide)) :
    Books cap decision turn slack (state.updateJournal id f).account := by
  have howed (rec : Journal) (hrec : state.recovery_in_flight.get? id = some rec) : (f rec).owed = false := by
    rw [Journal.owed, (hf rec hrec).1, Bool.and_false]
  refine h.updateJournal (fun rec hrec ho => ?_) (fun rec hrec hu => ?_) (fun rec hrec => ?_) fun rec hrec hr => Or.inl ?_
  · rw [howed rec hrec] at ho
    cases ho
  · rw [Journal.unanswered, howed rec hrec] at hu
    cases hu
  · rcases (hf rec hrec).2 with hstage | hstage
    · rw [Journal.unknown, hstage]
      exact h.known_journal hrec
    · rw [Journal.unknown, hstage]
  · rcases (hf rec hrec).2 with hstage | hstage
    · rw [Journal.refuting, hstage] at hr
      exact hr
    · rw [Journal.refuting, hstage] at hr
      cases hr

/-- The plan stage owes nothing. -/
theorem Books.to_plan (h : Books cap decision turn slack state.account) (id : String) :
    Books cap decision turn slack (state.updateJournal id fun rec => { rec with stage := .plan }).account := by
  refine h.updateJournal (fun rec _ ho => ?_) (fun rec _ hu => ?_) (fun _ _ => rfl) fun rec _ hr => ?_
  · cases ho
  · cases hu
  · cases hr

end LeanFlow.Recovery
