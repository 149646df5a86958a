import LeanFlow.Bridge.Operations

/-! The life of an operation, in every run.

`Fits` says of one job what its worker has done and what its receipt says. Every event
touches one job at most, or the flags of the bridge; what it does to a job is one lemma
(`advance_fits`, `cancel_fits`), and the others are as before. -/
namespace LeanFlow.Bridge
open General

variable {ρ : Type} {results : Results ρ}

/-! ### One job -/

/-- The worker, the operation and the receipt go together. -/
def Fits (results : Results ρ) (job : Job ρ) (saved : Operation ρ) : Prop :=
  (job.worker.isSome = true → job.operation.serializable results = true) ∧
    match job.worker.map Worker.phase with
    | none => job.operation.status ≠ .running ∧ saved.status = job.operation.status
    | some .ready | some .acting | some (.raised _) => job.operation.status = .running ∧ saved.status = .running
    | some (.returned result) => job.operation.status = .running ∧ saved.status = .running ∧
        results.serializable result = true ∧ (submits job.operation.tool = true → results.is_object result = true)
    | some .saving => job.operation.status ≠ .running ∧ saved.status = .running
    | some .reporting | some .ended => job.operation.status ≠ .running ∧ saved.status = job.operation.status

/-- The receipt of a running operation says so. -/
theorem Fits.running {job : Job ρ} {saved : Operation ρ} (h : Fits results job saved) (hrunning : job.operation.status = .running) :
    saved.status = .running := by
  obtain ⟨-, h⟩ := h
  split at h
  · exact absurd hrunning h.1
  · exact h.2
  · exact h.2
  · exact h.2
  · exact h.2.1
  · exact h.2
  · exact absurd hrunning h.1
  · exact absurd hrunning h.1

/-- A cancellation changes no status. -/
theorem Fits.cancelled {job : Job ρ} {saved new : Operation ρ} (h : Fits results job saved) (hstatus : new.status = saved.status) :
    Fits results { job with operation := { job.operation with cancel_requested := true }, stop := true } new := by
  obtain ⟨hserializable, h⟩ := h
  rw [← hstatus] at h
  exact ⟨hserializable, h⟩

/-- The condition, of one job. -/
def ProperMove (results : Results ρ) (job : Job ρ) : Move ρ → Prop
  | .announce (some .base) | .act (.error .base) => False
  | .act (.ok result) => results.serializable result = true ∧ (submits job.operation.tool = true → results.is_object result = true)
  | .save saved => saved = true
  | _ => True

/-- What a worker's step keeps of an operation. -/
structure Advanced (results : Results ρ) (move : Move ρ) (job : Job ρ) (worker : Worker ρ) (operation : Operation ρ)
    (after : Worker ρ) (saved : Operation ρ) : Prop where
  fits : Fits results { job with operation := operation, worker := some after } ((receipt results move job).getD saved)
  settled : job.operation.status ≠ .running → operation = job.operation
  receipt_settled : saved.status ≠ .running → receipt results move job = none
  tool : operation.tool = job.operation.tool
  response : after.response = worker.response
  submitted : ∀ response, submission results move job worker = some response → response = worker.response ∧
    submits operation.tool = true ∧ operation.status = .completed ∧
      ∃ result, operation.result = some result ∧ results.accepted result = true

theorem advance_fits {move : Move ρ} {job : Job ρ} {worker after : Worker ρ} {operation saved : Operation ρ}
    (h : Fits results job saved) (hworker : job.worker = some worker) (hproper : ProperMove results job move)
    (hadvance : advance results move job worker = some (operation, after)) :
    Advanced results move job worker operation after saved := by
  obtain ⟨hserializable, h⟩ := h
  replace hserializable := hserializable (by rw [hworker]; rfl)
  rw [hworker, Option.map_some] at h
  unfold advance at hadvance
  split at hadvance
  · rename_i hphase
    obtain ⟨rfl, rfl⟩ := Prod.mk.inj (Option.some.inj hadvance)
    rw [hphase] at h
    exact ⟨⟨fun _ => hserializable, h⟩, fun hstatus => rfl, fun _ => rfl, rfl, rfl, fun _ hs => by simp [submission] at hs⟩
  · rename_i raised hphase
    cases raised with
    | base => exact hproper.elim
    | exception message =>
      obtain ⟨rfl, rfl⟩ := Prod.mk.inj (Option.some.inj hadvance)
      rw [hphase] at h
      exact ⟨⟨fun _ => hserializable, h⟩, fun _ => rfl, fun _ => rfl, rfl, rfl, fun _ hs => by simp [submission] at hs⟩
  · rename_i result hphase
    obtain ⟨rfl, rfl⟩ := Prod.mk.inj (Option.some.inj hadvance)
    rw [hphase] at h
    exact ⟨⟨fun _ => hserializable, h.1, h.2, hproper⟩, fun _ => rfl, fun _ => rfl, rfl, rfl, fun _ hs => by simp [submission] at hs⟩
  · rename_i raised hphase
    cases raised with
    | base => exact hproper.elim
    | exception message =>
      obtain ⟨rfl, rfl⟩ := Prod.mk.inj (Option.some.inj hadvance)
      rw [hphase] at h
      exact ⟨⟨fun _ => hserializable, h⟩, fun _ => rfl, fun _ => rfl, rfl, rfl, fun _ hs => by simp [submission] at hs⟩
  · rename_i result hphase
    rw [hphase] at h
    obtain ⟨hrunning, hsaved, hresult, hobject⟩ := h
    have hcaught : (submits job.operation.tool && !results.is_object result) = false := by
      cases hsubmits : submits job.operation.tool with
      | false => rfl
      | true => simp [hobject hsubmits]
    obtain ⟨rfl, rfl⟩ := Prod.mk.inj (Option.some.inj hadvance)
    refine ⟨⟨fun _ => hresult, ?_⟩, fun hstatus => absurd hrunning hstatus, fun hstatus => absurd hsaved hstatus, rfl, rfl, fun response hs => ?_⟩
    · simp only [hcaught, Option.map_some, Worker.at]
      exact ⟨by decide, hsaved⟩
    · simp only [submission, hphase] at hs
      split at hs
      · rename_i haccepted
        simp only [Bool.and_eq_true] at haccepted
        exact ⟨(Option.some.inj hs).symm, haccepted.1.1, rfl, result, rfl, haccepted.2⟩
      · cases hs
  · rename_i message hphase
    obtain ⟨rfl, rfl⟩ := Prod.mk.inj (Option.some.inj hadvance)
    rw [hphase] at h
    refine ⟨⟨fun _ => hserializable, ?_⟩, fun hstatus => absurd h.1 hstatus, fun _ => rfl, rfl, rfl, fun _ hs => ?_⟩
    · exact ⟨by simp, h.2⟩
    · simp [submission, hphase] at hs
  · rename_i saved' hphase
    obtain rfl : saved' = true := hproper
    obtain ⟨rfl, rfl⟩ := Prod.mk.inj (Option.some.inj hadvance)
    rw [hphase] at h
    refine ⟨⟨fun _ => hserializable, ?_⟩, fun _ => rfl, fun hstatus => absurd h.2 hstatus, rfl, rfl, fun _ hs => by simp [submission] at hs⟩
    simp only [receipt, hserializable, Bool.and_self, if_true, Option.map_some, Worker.at, Option.getD_some]
    exact ⟨h.1, trivial⟩
  · rename_i hphase
    obtain ⟨rfl, rfl⟩ := Prod.mk.inj (Option.some.inj hadvance)
    rw [hphase] at h
    exact ⟨⟨fun _ => hserializable, h⟩, fun _ => rfl, fun _ => rfl, rfl, rfl, fun _ hs => by simp [submission] at hs⟩
  · cases hadvance

/-! ### The bridge -/

def AllEnded (b : Bridge ρ) : Prop :=
  ∀ id job worker, b.jobs.get? id = some job → job.worker = some worker → worker.phase = .ended

theorem is_ended_iff {phase : Phase ρ} : phase.is_ended = true ↔ phase = .ended := by
  cases phase <;> simp [Phase.is_ended]

theorem drained_iff {b : Bridge ρ} : drained b = true ↔ AllEnded b := by
  simp only [drained, List.all_eq_true, Option.all_eq_true]
  constructor
  · intro h id job worker hjob hworker
    exact is_ended_iff.mp (h (id, job) ((Dict.get?_eq_some_iff ..).mp hjob) worker hworker)
  · intro h item hitem worker hworker
    exact is_ended_iff.mpr (h item.1 item.2 worker ((Dict.get?_eq_some_iff ..).mpr hitem) hworker)

/-- The job whose accepted response this is. -/
structure Accepts (results : Results ρ) (response : String) (job : Job ρ) : Prop where
  worker : ∃ worker, job.worker = some worker ∧ worker.response = response
  tool : submits job.operation.tool = true
  completed : job.operation.status = .completed
  accepted : ∃ result, job.operation.result = some result ∧ results.accepted result = true

structure Kept (results : Results ρ) (b : Bridge ρ) (receipts : Dict OperationId (Operation ρ)) : Prop where
  fits : ∀ id job, b.jobs.get? id = some job → ∃ saved, receipts.get? id = some saved ∧ Fits results job saved
  known : ∀ id, b.jobs.get? id = none → receipts.get? id = none
  draining : b.draining = true → b.closed = true
  returned : 0 < b.returned → b.closed = true ∧ AllEnded b
  closed : b.closed = true → b.draining = true ∨ 0 < b.returned
  submitted : b.submitted_response = "" ∨ ∃ id job, b.jobs.get? id = some job ∧ Accepts results b.submitted_response job

/-- What no event changes: an operation that has ended, and a receipt that says so. -/
structure Settled (b b' : Bridge ρ) : Prop where
  jobs : ∀ id job, b.jobs.get? id = some job → job.operation.status ≠ .running →
    ∃ job', b'.jobs.get? id = some job' ∧ job'.operation.status = job.operation.status

def ReceiptsSettled (receipts receipts' : Dict OperationId (Operation ρ)) : Prop :=
  ∀ id saved, receipts.get? id = some saved → saved.status ≠ .running →
    ∃ saved', receipts'.get? id = some saved' ∧ saved'.status = saved.status

theorem ReceiptsSettled.refl (receipts : Dict OperationId (Operation ρ)) : ReceiptsSettled receipts receipts :=
  fun _ saved h _ => ⟨saved, h, rfl⟩

/-- A job that is set, beside the others. -/
theorem fits_set {b : Bridge ρ} {receipts receipts' : Dict OperationId (Operation ρ)} (h : Kept results b receipts)
    {id : OperationId} {job : Job ρ} {saved : Operation ρ} (hfits : Fits results job saved)
    (hsaved : receipts'.get? id = some saved) (helse : ∀ other, other ≠ id → receipts'.get? other = receipts.get? other) :
    (∀ other job', (b.jobs.set id job).get? other = some job' →
      ∃ saved, receipts'.get? other = some saved ∧ Fits results job' saved) ∧
      ∀ other, (b.jobs.set id job).get? other = none → receipts'.get? other = none := by
  refine ⟨fun other job' hjob => ?_, fun other hnone => ?_⟩
  · rw [Dict.get?_set] at hjob
    split at hjob
    · rename_i heq
      subst heq
      obtain rfl := Option.some.inj hjob
      exact ⟨saved, hsaved, hfits⟩
    · rename_i hne
      rw [helse other hne]
      exact h.fits other job' hjob
  · rw [Dict.get?_set] at hnone
    split at hnone
    · cases hnone
    · rename_i hne
      rw [helse other hne]
      exact h.known other hnone

theorem advance_ended {move : Move ρ} {job : Job ρ} {worker : Worker ρ} (h : worker.phase = .ended) :
    advance results move job worker = none := by
  unfold advance
  rw [h]
  cases move with
  | announce raised => cases raised <;> rfl
  | act outcome => cases outcome <;> rfl
  | _ => rfl

/-- What an event does to a bridge that is kept. -/
structure Stepped (results : Results ρ) (b : Bridge ρ) (receipts : Dict OperationId (Operation ρ)) (b' : Bridge ρ)
    (receipts' : Dict OperationId (Operation ρ)) : Prop where
  kept : Kept results b' receipts'
  settled : Settled b b'
  receipts : ReceiptsSettled receipts receipts'

theorem Stepped.refl {b : Bridge ρ} {receipts : Dict OperationId (Operation ρ)} (h : Kept results b receipts) :
    Stepped results b receipts b receipts :=
  ⟨h, ⟨fun _ job hjob _ => ⟨job, hjob, rfl⟩⟩, .refl receipts⟩

theorem settled_set {b : Bridge ρ} {id : OperationId} {job : Job ρ} {b' : Bridge ρ} (hjobs : b'.jobs = b.jobs.set id job)
    (h : ∀ old, b.jobs.get? id = some old → old.operation.status ≠ .running → job.operation.status = old.operation.status) :
    Settled b b' := by
  refine ⟨fun other old hold hstatus => ?_⟩
  rw [hjobs, Dict.get?_set]
  split
  · rename_i heq
    subst heq
    exact ⟨job, rfl, h old hold hstatus⟩
  · exact ⟨old, hold, rfl⟩

theorem receipts_settled_set {receipts : Dict OperationId (Operation ρ)} {id : OperationId} {new : Operation ρ}
    (h : ∀ saved, receipts.get? id = some saved → saved.status = .running) : ReceiptsSettled receipts (receipts.set id new) := by
  intro other saved hsaved hstatus
  rw [Dict.get?_set]
  split
  · rename_i heq
    subst heq
    exact absurd (h saved hsaved) hstatus
  · exact ⟨saved, hsaved, rfl⟩

theorem work_stepped {id : OperationId} {move : Move ρ} {b : Bridge ρ} {receipts : Dict OperationId (Operation ρ)} {w' : World ρ}
    (h : Kept results b receipts) (hproper : Proper results ⟨some b, receipts⟩ (.work id move))
    (hwork : work results id move b receipts = some w') :
    ∃ b', w'.bridge = some b' ∧ b'.closed = b.closed ∧ Stepped results b receipts b' w'.receipts := by
  obtain ⟨job, hjob, hwork⟩ := Option.bind_eq_some_iff.mp hwork
  obtain ⟨worker, hworker, hwork⟩ := Option.bind_eq_some_iff.mp hwork
  obtain ⟨⟨operation, after⟩, hadvance, hwork⟩ := Option.bind_eq_some_iff.mp hwork
  obtain rfl := Option.some.inj hwork
  obtain ⟨saved, hsaved, hfits⟩ := h.fits id job hjob
  have hmove : ProperMove results job move := by
    have hcond := hproper b rfl
    cases move with
    | announce raised =>
      cases raised with
      | none => trivial
      | some raised =>
        cases raised with
        | exception message => trivial
        | base => exact hcond
    | act outcome =>
      cases outcome with
      | ok result => exact ⟨hcond.1, hcond.2 job hjob⟩
      | error raised =>
        cases raised with
        | exception message => trivial
        | base => exact hcond
    | save saved => exact hcond
    | _ => trivial
  have hadvanced := advance_fits hfits hworker hmove hadvance
  have hafter : (((receipt results move job).map (receipts.set id)).getD receipts).get? id =
      some ((receipt results move job).getD saved) := by
    cases receipt results move job with
    | none => exact hsaved
    | some new => exact Dict.get?_set_self ..
  have helse (other : OperationId) (hne : other ≠ id) :
      (((receipt results move job).map (receipts.set id)).getD receipts).get? other = receipts.get? other := by
    cases receipt results move job with
    | none => rfl
    | some new => exact Dict.get?_set_ne _ _ hne
  obtain ⟨hjobs, hknown⟩ := fits_set h hadvanced.fits hafter helse
  refine ⟨_, rfl, rfl, ⟨hjobs, hknown, h.draining, fun hreturned => ?_, h.closed, ?_⟩, settled_set rfl ?_, ?_⟩
  · have hended := (h.returned hreturned).2 id job worker hjob hworker
    cases (advance_ended hended).symm.trans hadvance
  · cases hsubmission : submission results move job worker with
    | some response =>
      obtain ⟨hresponse, htool, hcompleted, haccepted⟩ := hadvanced.submitted response hsubmission
      refine Or.inr ⟨id, _, Dict.get?_set_self .., ⟨after, rfl, ?_⟩, htool, hcompleted, haccepted⟩
      simp only [Option.getD_some, hresponse, hadvanced.response]
    | none =>
      refine h.submitted.imp_right ?_
      rintro ⟨other, job', hjob', haccepts⟩
      by_cases hother : other = id
      · subst hother
        obtain rfl := Option.some.inj (hjob.symm.trans hjob')
        obtain ⟨worker', hworker', hresponse⟩ := haccepts.worker
        obtain rfl := Option.some.inj (hworker.symm.trans hworker')
        have hsame : operation = job.operation := hadvanced.settled (by rw [haccepts.completed]; decide)
        subst hsame
        exact ⟨other, _, Dict.get?_set_self .., ⟨after, rfl, hadvanced.response.trans hresponse⟩, haccepts.tool,
          haccepts.completed, haccepts.accepted⟩
      · exact ⟨other, job', (Dict.get?_set_ne _ _ hother).trans hjob', haccepts⟩
  · intro old hold hstatus
    obtain rfl := Option.some.inj (hjob.symm.trans hold)
    rw [hadvanced.settled hstatus]
  · cases hreceipt : receipt results move job with
    | none => exact .refl receipts
    | some new =>
      refine receipts_settled_set fun old hold => ?_
      obtain rfl := Option.some.inj (hsaved.symm.trans hold)
      by_contra hstatus
      cases hreceipt.symm.trans (hadvanced.receipt_settled hstatus)

/-! ### Calls -/

theorem admission_stepped {id : OperationId} (tool response : String) {saved started : Bool} {b : Bridge ρ}
    {receipts : Dict OperationId (Operation ρ)} (h : Kept results b receipts)
    (hfresh : b.jobs.get? id = none) (hproper : b.closed = true ∨ (saved = true ∧ started = true)) :
    ∃ b', (admission id tool response saved started b receipts).bridge = some b' ∧ b'.closed = b.closed ∧
      (b.closed = true → b' = b) ∧ Stepped results b receipts b' (admission id tool response saved started b receipts).receipts := by
  unfold admission
  by_cases hclosed : b.closed = true
  · rw [if_pos hclosed]
    exact ⟨b, rfl, rfl, fun _ => rfl, .refl h⟩
  · obtain ⟨rfl, rfl⟩ := hproper.resolve_left hclosed
    rw [if_neg hclosed]
    have hnone : receipts.get? id = none := h.known id hfresh
    have hfits : Fits results { operation := { tool := tool }, worker := some ⟨response, .ready⟩ } { tool := tool } :=
      ⟨fun _ => rfl, rfl, rfl⟩
    obtain ⟨hjobs, hknown⟩ := fits_set h hfits (Dict.get?_set_self receipts id _) (fun other hne => Dict.get?_set_ne _ _ hne)
    refine ⟨_, rfl, rfl, fun hc => absurd hc hclosed, ⟨hjobs, hknown, h.draining, fun hreturned => ?_, h.closed, ?_⟩,
      settled_set rfl fun old hold => ?_, receipts_settled_set fun old hold => ?_⟩
    · exact absurd (h.returned hreturned).1 hclosed
    · refine h.submitted.imp_right ?_
      rintro ⟨other, job', hjob', haccepts⟩
      refine ⟨other, job', (Dict.get?_set_ne _ _ ?_).trans hjob', haccepts⟩
      rintro rfl
      cases hfresh.symm.trans hjob'
    · cases hfresh.symm.trans hold
    · cases hnone.symm.trans hold

theorem cancel_stepped (id : OperationId) (saved : Bool) {b : Bridge ρ} {receipts : Dict OperationId (Operation ρ)}
    (h : Kept results b receipts) :
    ∃ b', (cancel id saved b receipts).bridge = some b' ∧ b'.closed = b.closed ∧
      Stepped results b receipts b' (cancel id saved b receipts).receipts := by
  unfold cancel
  cases hjob : b.jobs.get? id with
  | none => exact ⟨b, rfl, rfl, .refl h⟩
  | some job =>
    by_cases hrunning : job.operation.status = .running
    · simp only [if_pos hrunning]
      obtain ⟨old, hold, hfits⟩ := h.fits id job hjob
      have holdrunning := hfits.running hrunning
      obtain ⟨new, hnew, hnewrunning, helse, hsettled⟩ : ∃ new, (if saved = true then
          receipts.set id { job.operation with cancel_requested := true } else receipts).get? id = some new ∧
          new.status = .running ∧ (∀ other, other ≠ id → (if saved = true then
            receipts.set id { job.operation with cancel_requested := true } else receipts).get? other = receipts.get? other) ∧
          ReceiptsSettled receipts (if saved = true then
            receipts.set id { job.operation with cancel_requested := true } else receipts) := by
        cases saved with
        | true =>
          refine ⟨_, Dict.get?_set_self .., hrunning, fun other hne => Dict.get?_set_ne _ _ hne, receipts_settled_set fun saved hsaved => ?_⟩
          obtain rfl := Option.some.inj (hold.symm.trans hsaved)
          exact holdrunning
        | false => exact ⟨old, hold, holdrunning, fun _ _ => rfl, .refl receipts⟩
      obtain ⟨hjobs, hknown⟩ := fits_set h (hfits.cancelled (hnewrunning.trans holdrunning.symm)) hnew helse
      refine ⟨_, rfl, rfl, ⟨hjobs, hknown, h.draining, fun hreturned => ⟨(h.returned hreturned).1, ?_⟩, h.closed, ?_⟩,
        settled_set rfl fun before hbefore hstatus => ?_, hsettled⟩
      · intro other job' worker hjob' hworker
        rw [Dict.get?_set] at hjob'
        split at hjob'
        · obtain rfl := Option.some.inj hjob'
          exact (h.returned hreturned).2 id job worker hjob hworker
        · exact (h.returned hreturned).2 other job' worker hjob' hworker
      · refine h.submitted.imp_right ?_
        rintro ⟨other, job', hjob', haccepts⟩
        refine ⟨other, job', (Dict.get?_set_ne _ _ ?_).trans hjob', haccepts⟩
        rintro rfl
        obtain rfl := Option.some.inj (hjob.symm.trans hjob')
        cases hrunning.symm.trans haccepts.completed
      · obtain rfl := Option.some.inj (hjob.symm.trans hbefore)
        exact absurd hrunning hstatus
    · simp only [if_neg hrunning]
      exact ⟨b, rfl, rfl, .refl h⟩

theorem get?_close (b : Bridge ρ) (hclosed : b.closed ≠ true) (id : OperationId) :
    (close b).jobs.get? id = (b.jobs.get? id).map fun job => { job with stop := true } := by
  rw [close, if_neg hclosed]
  exact Dict.get?_mapValues ..

theorem close_stepped {b : Bridge ρ} {receipts : Dict OperationId (Operation ρ)} (h : Kept results b receipts)
    (hproper : b.draining = false) : Stepped results b receipts (close b) receipts := by
  by_cases hclosed : b.closed = true
  · have hreturned : 0 < b.returned := (h.closed hclosed).resolve_left (by simp [hproper])
    rw [close, if_pos hclosed]
    exact ⟨⟨h.fits, h.known, h.draining, fun _ => h.returned hreturned, fun _ => Or.inr (Nat.succ_pos _), h.submitted⟩,
      ⟨fun _ job hjob _ => ⟨job, hjob, rfl⟩⟩, .refl receipts⟩
  · have hget := get?_close b hclosed
    refine ⟨⟨fun id job hjob => ?_, fun id hnone => ?_, ?_, fun hreturned => ?_, ?_, ?_⟩, ⟨fun id job hjob _ => ?_⟩, .refl receipts⟩
    · rw [hget] at hjob
      obtain ⟨old, hold, rfl⟩ := Option.map_eq_some_iff.mp hjob
      exact h.fits id old hold
    · rw [hget] at hnone
      exact h.known id (Option.map_eq_none_iff.mp hnone)
    · rw [close, if_neg hclosed]
      exact fun _ => rfl
    · rw [close, if_neg hclosed] at hreturned
      exact absurd (h.returned hreturned).1 hclosed
    · rw [close, if_neg hclosed]
      exact fun _ => Or.inl rfl
    · have hsame : (close b).submitted_response = b.submitted_response := by rw [close, if_neg hclosed]
      rw [hsame]
      refine h.submitted.imp_right ?_
      rintro ⟨id, job, hjob, haccepts⟩
      exact ⟨id, { job with stop := true }, by rw [hget, hjob]; rfl, haccepts.worker, haccepts.tool, haccepts.completed, haccepts.accepted⟩
    · exact ⟨{ job with stop := true }, by rw [hget, hjob]; rfl, rfl⟩

theorem interrupt_status (operation : Operation ρ) :
    (interrupt operation).status = if operation.status = .running then .interrupted else operation.status := by
  unfold interrupt
  split <;> rfl

/-- The bridge of a new controller, where it starts. -/
theorem restart_spec (fails : OperationId → Bool) (receipts : Dict OperationId (Operation ρ)) :
    ReceiptsSettled receipts (restart fails receipts).receipts ∧
      ∀ b', (restart fails receipts).bridge = some b' → b'.closed = false ∧ b'.draining = false ∧ b'.returned = 0 ∧
        b'.submitted_response = "" ∧ (∀ id, (restart fails receipts).receipts.get? id = (receipts.get? id).map interrupt) ∧
          ∀ id, b'.jobs.get? id = (receipts.get? id).map fun operation => { operation := interrupt operation } := by
  have hrewritten (id : OperationId) : (receipts.mapValues fun id operation => if fails id then operation else interrupt operation).get? id =
      (receipts.get? id).map fun operation => if fails id then operation else interrupt operation := Dict.get?_mapValues ..
  unfold restart
  dsimp only
  split
  · refine ⟨fun id saved hsaved hstatus => ?_, fun b' hb' => (by cases hb')⟩
    refine ⟨_, by rw [hrewritten, hsaved]; rfl, ?_⟩
    dsimp only
    split
    · rfl
    · rw [interrupt_status, if_neg hstatus]
  · rename_i hnone
    have hall (id : OperationId) (operation : Operation ρ) (hmem : receipts.get? id = some operation) :
        (if fails id then operation else interrupt operation) = interrupt operation := by
      split
      · rename_i hfails
        have hnot := hnone
        simp only [List.any_eq_true, not_exists, not_and] at hnot
        have hrunning : operation.status ≠ .running := fun hrunning =>
          hnot (id, operation) ((Dict.get?_eq_some_iff ..).mp hmem) (by simp [hrunning, hfails])
        rw [interrupt, if_neg hrunning]
      · rfl
    have hget (id : OperationId) : (receipts.mapValues fun id operation => if fails id then operation else interrupt operation).get? id =
        (receipts.get? id).map interrupt := by
      rw [hrewritten]
      cases hmem : receipts.get? id with
      | none => rfl
      | some operation => exact congrArg some (hall id operation hmem)
    refine ⟨fun id saved hsaved hstatus => ?_, fun b' hb' => ?_⟩
    · refine ⟨interrupt saved, by rw [hget, hsaved]; rfl, ?_⟩
      rw [interrupt_status, if_neg hstatus]
    · obtain rfl := Option.some.inj hb'
      refine ⟨rfl, rfl, rfl, rfl, hget, fun id => ?_⟩
      rw [Dict.get?_mapValues, hget]
      cases receipts.get? id <;> rfl

theorem restart_kept (fails : OperationId → Bool) (receipts : Dict OperationId (Operation ρ)) {b' : Bridge ρ}
    (hb' : (restart fails receipts).bridge = some b') : Kept results b' (restart fails receipts).receipts := by
  obtain ⟨hclosed, hdraining, hreturned, hsubmitted, hreceipts, hjobs⟩ := (restart_spec fails receipts).2 b' hb'
  refine ⟨fun id job hjob => ?_, fun id hnone => ?_, ?_, ?_, ?_, Or.inl hsubmitted⟩
  · rw [hjobs] at hjob
    obtain ⟨operation, hoperation, rfl⟩ := Option.map_eq_some_iff.mp hjob
    refine ⟨interrupt operation, by rw [hreceipts, hoperation]; rfl, fun hsome => (by cases hsome), ?_, rfl⟩
    dsimp only
    rw [interrupt_status]
    split
    · decide
    · assumption
  · rw [hjobs] at hnone
    rw [hreceipts, Option.map_eq_none_iff.mp hnone, Option.map_none]
  · simp [hdraining]
  · simp [hreturned]
  · simp [hclosed]

/-! ### Runs -/

def KeptWorld (results : Results ρ) (w : World ρ) : Prop := ∀ b, w.bridge = some b → Kept results b w.receipts

/-- What one event changes. -/
structure Step (results : Results ρ) (w : World ρ) (event : Event ρ) (w' : World ρ) : Prop where
  kept : KeptWorld results w'
  settled : ∀ b b', w.bridge = some b → w'.bridge = some b' → Settled b b'
  receipts : ReceiptsSettled w.receipts w'.receipts
  /-- A new controller finds what was running interrupted. -/
  restarted : ∀ b', w.bridge = none → w'.bridge = some b' → ∀ id,
    w'.receipts.get? id = (w.receipts.get? id).map interrupt ∧
      b'.jobs.get? id = (w.receipts.get? id).map fun operation => { operation := interrupt operation }
  /-- A closed bridge admits nothing. -/
  closed : ∀ b id tool response saved started, w.bridge = some b → b.closed = true →
    event = .admission id tool response saved started → w' = w

theorem step_spec {w w' : World ρ} {event : Event ρ} (h : KeptWorld results w) (hproper : Proper results w event)
    (hstep : step results w event = some w') : Step results w event w' := by
  cases hbridge : w.bridge with
  | none =>
    cases event with
    | restart fails =>
      simp only [step, hbridge, Option.some.injEq] at hstep
      subst hstep
      obtain ⟨hreceipts, hspec⟩ := restart_spec fails w.receipts
      refine ⟨fun b' hb' => restart_kept fails w.receipts hb', fun b b' hb => ?_, hreceipts, fun b' _ hb' id => ?_, fun b _ _ _ _ _ hb => ?_⟩
      · cases hbridge.symm.trans hb
      · obtain ⟨-, -, -, -, hget, hjobs⟩ := hspec b' hb'
        exact ⟨hget id, hjobs id⟩
      · cases hbridge.symm.trans hb
    | _ => simp [step, hbridge] at hstep
  | some b =>
    have hkept := h b hbridge
    have hcond := hproper b hbridge
    -- One event of the bridge `b`, from what it does to it.
    have hmake (b' : Bridge ρ) (hb' : w'.bridge = some b') (hstepped : Stepped results b w.receipts b' w'.receipts)
        (hclosed : ∀ id tool response saved started, b.closed = true → event = .admission id tool response saved started → w' = w) :
        Step results w event w' := by
      refine ⟨fun b'' hb'' => ?_, fun b₀ b'' hb₀ hb'' => ?_, hstepped.receipts, fun _ hnone => ?_, fun b₀ id tool response saved started hb₀ => ?_⟩
      · obtain rfl := Option.some.inj (hb'.symm.trans hb'')
        exact hstepped.kept
      · obtain rfl := Option.some.inj (hb'.symm.trans hb'')
        obtain rfl := Option.some.inj (hbridge.symm.trans hb₀)
        exact hstepped.settled
      · cases hbridge.symm.trans hnone
      · obtain rfl := Option.some.inj (hbridge.symm.trans hb₀)
        exact hclosed id tool response saved started
    cases event with
    | admission id tool response saved started =>
      simp only [step, hbridge] at hstep
      split at hstep
      · cases hstep
      · rename_i hfresh
        obtain rfl := Option.some.inj hstep
        have hnone : b.jobs.get? id = none := by
          simp only [Bool.or_eq_true, not_or, Option.not_isSome_iff_eq_none] at hfresh
          exact hfresh.1
        obtain ⟨b', hb', -, hsame, hstepped⟩ := admission_stepped tool response hkept hnone hcond
        refine hmake b' hb' hstepped fun _ _ _ _ _ hclosed _ => ?_
        simp only [admission, if_pos hclosed]
        rw [← hbridge]
    | work id move =>
      simp only [step, hbridge] at hstep
      obtain ⟨b', hb', -, hstepped⟩ := work_stepped hkept (fun b₀ hb₀ => by
        obtain rfl := Option.some.inj hb₀
        exact hcond) hstep
      exact hmake b' hb' hstepped fun _ _ _ _ _ _ heq => (by cases heq)
    | cancel id saved =>
      simp only [step, hbridge, Option.some.injEq] at hstep
      subst hstep
      obtain ⟨b', hb', -, hstepped⟩ := cancel_stepped id saved hkept
      exact hmake b' hb' hstepped fun _ _ _ _ _ _ heq => (by cases heq)
    | close =>
      simp only [step, hbridge, Option.some.injEq] at hstep
      subst hstep
      exact hmake (close b) rfl (close_stepped hkept hcond) fun _ _ _ _ _ _ heq => (by cases heq)
    | drained =>
      simp only [step, hbridge] at hstep
      split at hstep
      · rename_i hdrained
        obtain rfl := Option.some.inj hstep
        simp only [Bool.and_eq_true] at hdrained
        refine hmake _ rfl ⟨⟨hkept.fits, hkept.known, fun hd => (by cases hd), fun _ => ?_, fun _ => Or.inr (Nat.succ_pos _),
          hkept.submitted⟩, ⟨fun _ job hjob _ => ⟨job, hjob, rfl⟩⟩, .refl _⟩ fun _ _ _ _ _ _ heq => (by cases heq)
        exact ⟨hkept.draining hdrained.1, drained_iff.mp hdrained.2⟩
      · cases hstep
    | crash =>
      simp only [step, hbridge, Option.some.injEq] at hstep
      subst hstep
      exact ⟨fun _ hb => (by cases hb), fun _ _ _ hb => (by cases hb), .refl _, fun _ _ hb => (by cases hb),
        fun _ _ _ _ _ _ _ _ heq => (by cases heq)⟩
    | restart fails => simp [step, hbridge] at hstep

theorem run_kept {w w' : World ρ} {events : List (Event ρ)} (h : KeptWorld results w)
    (hproper : Throughout (step results) (Proper results) w events) (hrun : run results w events = some w') : KeptWorld results w' :=
  hproper.preserves (fun _ _ _ hw hok hstep => (step_spec hw hok hstep).kept) h hrun

theorem Fits.ended {job : Job ρ} {saved : Operation ρ} {worker : Worker ρ} (h : Fits results job saved)
    (hworker : job.worker = some worker) (hphase : worker.phase = .ended) :
    job.operation.status ≠ .running ∧ saved.status = job.operation.status := by
  obtain ⟨-, h⟩ := h
  rwa [hworker, Option.map_some, hphase] at h

/-- **An operation ends once**, in every run whose events are proper. Where its worker has
ended, the operation and its receipt have one and the same final status; no event changes a
final status, and a new controller finds what was running interrupted; a close returns
when every worker has ended, and nothing is admitted after that; and what is submitted is
the response of an operation whose result was accepted. -/
theorem operations_end {events : List (Event ρ)} {w : World ρ} (hrun : run results .initial events = some w)
    (hproper : Throughout (step results) (Proper results) .initial events) :
    (∀ b, w.bridge = some b →
      (∀ id job worker, b.jobs.get? id = some job → job.worker = some worker → worker.phase = .ended →
        job.operation.status ≠ .running ∧ ∃ saved, w.receipts.get? id = some saved ∧ saved.status = job.operation.status) ∧
      (0 < b.returned → b.closed = true ∧ AllEnded b) ∧
      (b.submitted_response = "" ∨ ∃ id job, b.jobs.get? id = some job ∧ Accepts results b.submitted_response job)) ∧
    ∀ event w', Proper results w event → step results w event = some w' →
      (∀ b b', w.bridge = some b → w'.bridge = some b' → ∀ id job, b.jobs.get? id = some job → job.operation.status ≠ .running →
        ∃ job', b'.jobs.get? id = some job' ∧ job'.operation.status = job.operation.status) ∧
      ReceiptsSettled w.receipts w'.receipts ∧
      (∀ b', w.bridge = none → w'.bridge = some b' → ∀ id,
        w'.receipts.get? id = (w.receipts.get? id).map interrupt ∧
          b'.jobs.get? id = (w.receipts.get? id).map fun operation => { operation := interrupt operation }) ∧
      ∀ b id tool response saved started, w.bridge = some b → 0 < b.returned →
        event = .admission id tool response saved started → w' = w := by
  have hkept : KeptWorld results w := run_kept (fun _ hb => (by cases hb)) hproper hrun
  refine ⟨fun b hb => ⟨fun id job worker hjob hworker hphase => ?_, (hkept b hb).returned, (hkept b hb).submitted⟩,
    fun event w' hevent hstep => ?_⟩
  · obtain ⟨saved, hsaved, hfits⟩ := (hkept b hb).fits id job hjob
    obtain ⟨hstatus, hsame⟩ := hfits.ended hworker hphase
    exact ⟨hstatus, saved, hsaved, hsame⟩
  · have hspec := step_spec hkept hevent hstep
    exact ⟨fun b b' hb hb' => (hspec.settled b b' hb hb').jobs, hspec.receipts, hspec.restarted,
      fun b id tool response saved started hb hreturned heq =>
        hspec.closed b id tool response saved started hb ((hkept b hb).returned hreturned).1 heq⟩

/-- Results that are accepted objects, and results that are neither. -/
def uniform (accepted : Bool) : Results Unit := ⟨fun _ => accepted, fun _ => accepted, fun _ => true⟩

/-- A submission, up to the publication of its result. -/
def submission_run : List (Event Unit) :=
  [.restart fun _ => false, .admission 1 "submit_candidate" "proof" true true, .work 1 (.announce none), .work 1 (.act (.ok ())),
    .work 1 .publish]

theorem submission_accepted : ∃ w, run (uniform true) .initial submission_run = some w ∧
    ∀ b, w.bridge = some b → b.submitted_response = "" ∨
      ∃ id job, b.jobs.get? id = some job ∧ Accepts (uniform true) b.submitted_response job := by
  have hrun : (run (uniform true) .initial submission_run).isSome = true := by decide +kernel
  obtain ⟨w, hrun⟩ := Option.isSome_iff_exists.mp hrun
  have hproper : Throughout (step (uniform true)) (Proper (uniform true)) .initial submission_run := by
    refine ⟨fun _ _ => trivial, fun _ _ => ⟨fun _ _ => Or.inr ⟨rfl, rfl⟩, fun _ _ => ⟨fun _ _ => trivial, fun _ _ => ⟨?_, fun _ _ => ?_⟩⟩⟩⟩
    · exact fun _ _ => ⟨rfl, fun _ _ _ => rfl⟩
    · exact ⟨fun _ _ => trivial, fun _ _ => trivial⟩
  exact ⟨w, hrun, fun b hb => ((operations_end hrun hproper).1 b hb).2.2⟩

def World.status (w : World Unit) (id : OperationId) : Option Status :=
  w.bridge.bind fun b => (b.jobs.get? id).map (·.operation.status)

/-- A submission whose result is no object completes, and then fails. -/
theorem completed_then_failed : ¬∀ (events : List (Event Unit)) (w w' : World Unit) (event : Event Unit),
    run (uniform false) .initial events = some w → step (uniform false) w event = some w' →
      ∀ id, w.status id = some .completed → w'.status id = some .completed := by
  intro h
  have hrun : (run (uniform false) .initial submission_run).any fun w =>
      w.status 1 = some .completed ∧ (step (uniform false) w (.work 1 .publish)).any fun w' => w'.status 1 = some .failed := by
    decide +kernel
  obtain ⟨w, hw, hcond⟩ := Option.any_eq_true _ _ |>.mp hrun
  simp only [Bool.decide_and, Bool.and_eq_true, decide_eq_true_eq, Option.any_eq_true] at hcond
  obtain ⟨hcompleted, w', hw', hfailed⟩ := hcond
  cases (h submission_run w w' (.work 1 .publish) hw hw' 1 hcompleted).symm.trans hfailed

end LeanFlow.Bridge

