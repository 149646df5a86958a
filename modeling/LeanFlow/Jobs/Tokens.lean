import LeanFlow.Jobs.Usage

/-! The token cap.

With a cap a call is admitted only when the usage of every finished invocation is
known and their sum is below the cap. The controller keeps one flag for a job, set
when an invocation is settled; an invocation that a crash cut off is never settled. -/
namespace LeanFlow.Jobs
open General Goals Source

/-! ### What a reservation finds -/

/-- Some call would be admitted now. -/
def Reserves (config : Config) (jobs : List Job) : Prop :=
  ∃ consumed reserved requested allocation rt,
    Prog.calm (reserve requested) { config := config, jobs := jobs, consumed := consumed, reserved := reserved } =
      (.ok allocation, rt)

theorem reserves_metered {config : Config} {jobs : List Job} {cap : Nat} (hcap : config.tokens = some cap)
    (h : Reserves config jobs) : (∀ job ∈ jobs, job.unmetered = false) ∧
      (jobs.map fun job => job.input_tokens + job.output_tokens).sum < cap := by
  obtain ⟨consumed, reserved, requested, allocation, rt, h⟩ := h
  simp only [reserve, ensure_active, check_storage, Prog.calm_bind, Prog.calm_fault, Prog.calm_get] at h
  split at h
  · cases h
  split at h
  · cases h
  · rename_i hunmetered
    split at h
    · cases h
    · rename_i htokens
      rw [hcap] at hunmetered htokens
      refine ⟨fun job hjob => ?_, by simpa using htokens⟩
      have hall : jobs.any Job.unmetered = false := by simpa using hunmetered
      exact Bool.eq_false_iff.mpr (List.any_eq_false.mp hall job hjob)

/-! ### One job -/

/-- An invocation that is over, and known if it was charged. -/
structure Report.Known (report : Report) : Prop where
  closed : report.closed = true
  known : report.charged = true → report.known = true

namespace Life
variable {life next : Life}

/-- An invocation of unknown usage shows in the job, and what a resume needs to show it again. -/
structure Metered (life : Life) : Prop where
  past : ∀ report ∈ life.past, report.Known
  closed : life.current.closed = !life.job.live
  current : life.current.closed = true → life.current.charged = true →
    life.current.known = true ∨ life.job.unmetered = true
  charged : life.current.closed = true → life.current.charged = true →
    life.job.previous_api_calls < life.ledger.used
  calls : life.job.previous_api_calls < life.job.api_calls → life.job.live = true →
    ∃ invocation, life.invocation = some invocation ∧ life.job.previous_api_calls < invocation.calls
  result : ∀ result, life.result = some result → (life.job.previous_api_calls : Int) < result.api_calls.getD 0 →
    life.job.previous_api_calls < life.ledger.used
  copied : ∀ invocation, life.invocation = some invocation → life.result = none →
    invocation.previous.used = life.ledger.used
  started : ∀ invocation, life.invocation = some invocation → invocation.calls ≤ life.ledger.used
  written : life.job.resumed = false → life.ledger.usage ≠ none →
    (∀ result, life.result = some result → result.usage_known = true) ∧
      (life.result = none → life.current.known = true)
  saved : life.saved.accounted = true → life.current.closed = true ∧
    (life.current.charged = true → life.current.known = true ∨ life.saved.usage_known = false)
  same : life.saved.previous_api_calls = life.job.previous_api_calls

/-- No process ends while a charged invocation is neither settled in the durable state nor known
to the ledger, and no job is resumed whose last invocation is of unknown usage; with a cap, the
reservation sees to that. -/
def Settled (life : Life) : Occurrence → Prop
  | .restore _ => life.saved.accounted = true ∨ life.ledger.used ≤ life.job.previous_api_calls ∨
    life.ledger.usage ≠ none
  | .resume => life.job.unmetered = false
  | _ => True

theorem Born.metered (h : life.Born) : life.Metered := by
  obtain ⟨⟨hlive, hcalls, hprevious, -, -⟩, -, hsaved, hledger, ⟨hinvocation, hresult⟩, hcurrent, hpast⟩ := h
  have haccounted : life.saved.accounted = false := by
    rw [hsaved]
    simp only [Job.live, Bool.and_eq_true, Bool.not_eq_true'] at hlive
    exact hlive.2
  refine ⟨by simp [hpast], by rw [hcurrent, hlive]; rfl, ?_, ?_, fun hlt => ?_, by simp [hresult],
    by simp [hinvocation], by simp [hinvocation], ?_, ?_, by rw [hsaved]⟩
  · rw [hcurrent]
    intro hclosed
    cases hclosed
  · rw [hcurrent]
    intro hclosed
    cases hclosed
  · omega
  · rw [hledger]
    exact fun _ h => absurd rfl h
  · rw [haccounted]
    intro h
    cases h

/-! The current invocation is over when the job does not run. -/

theorem Metered.over (h : life.Metered) (hidle : life.job.live = false) : life.current.closed = true := by
  rw [h.closed, hidle]
  rfl

theorem Metered.pending (h : life.Metered) (hlive : life.job.live = true) : life.current.closed = false := by
  rw [h.closed, hlive]
  rfl

theorem Metered.unsettled (h : life.Metered) (hlive : life.job.live = true) : life.saved.accounted = false := by
  cases hsaved : life.saved.accounted with
  | false => rfl
  | true =>
    have hclosed := (h.saved hsaved).1
    rw [h.pending hlive] at hclosed
    cases hclosed

theorem Metered.journaled (h : life.Metered) (hlive : life.job.live = true)
    (hcalls : life.job.previous_api_calls < life.job.api_calls) : life.job.previous_api_calls < life.ledger.used := by
  obtain ⟨invocation, hinvocation, hlt⟩ := h.calls hcalls hlive
  exact hlt.trans_le (h.started invocation hinvocation)

/-- The session rewrites the ledger; the calls it journals do not fall below those it started. -/
theorem Metered.ledger (h : life.Metered) (htold : life.Told) (hlive : life.job.live = true)
    (hresult : life.result = none) {ledger : Ledger} {invocation : Invocation}
    (husage : ledger.usage = life.ledger.usage) (hcopied : invocation.previous.used = ledger.used)
    (hstarted : invocation.calls ≤ ledger.used)
    (hgrown : ∀ before, life.invocation = some before → before.calls ≤ invocation.calls) :
    Metered { life with ledger := ledger, invocation := some invocation } := by
  have hclosed := h.pending hlive
  refine ⟨h.past, h.closed, h.current, fun hover => ?_, fun hlt hlive => ?_, by simp [hresult],
    fun after hafter _ => ?_, fun after hafter => ?_, fun hresumed hwritten => ?_, h.saved, h.same⟩
  · rw [show life.current.closed = true from hover] at hclosed
    cases hclosed
  · obtain ⟨before, hbefore, hcalls⟩ := h.calls hlt hlive
    exact ⟨invocation, rfl, hcalls.trans_le (hgrown before hbefore)⟩
  · obtain rfl := Option.some.inj hafter
    exact hcopied
  · obtain rfl := Option.some.inj hafter
    exact hstarted
  · exact absurd ((htold.first hresumed).unwritten hlive hresult) (husage ▸ hwritten)

/-- A session that did not write its ledger reports no call beyond those it started. -/
theorem Metered.dropped (h : life.Metered) (htold : life.Told) (hlive : life.job.live = true)
    (hresult : life.result = none) {result : Result}
    (hcalls : (life.job.previous_api_calls : Int) < result.api_calls.getD 0 →
      life.job.previous_api_calls < life.ledger.used) :
    Metered { life with result := some result } := by
  refine ⟨h.past, h.closed, h.current, h.charged, h.calls, fun r hr => ?_, fun _ _ hnone => ?_, h.started,
    fun hresumed hwritten => ?_, h.saved, h.same⟩
  · obtain rfl := Option.some.inj hr
    exact hcalls
  · cases hnone
  · exact absurd ((htold.first hresumed).unwritten hlive hresult) hwritten

/-- The session is done and has written its ledger. -/
theorem Metered.replied (h : life.Metered) (hlive : life.job.live = true) {invocation : Invocation}
    (hinvocation : life.invocation = some invocation) (status : JobStatus) (total usage : Option Counters) :
    Metered { life with ledger := journal invocation total usage, result := some (replied invocation status usage) } := by
  have hclosed := h.pending hlive
  refine ⟨h.past, h.closed, h.current, fun hover => ?_, h.calls, fun r hr hlt => ?_, fun _ _ hnone => ?_,
    fun after hafter => ?_, fun _ hwritten => ⟨fun r hr => ?_, fun hnone => ?_⟩, h.saved, h.same⟩
  · rw [show life.current.closed = true from hover] at hclosed
    cases hclosed
  · obtain rfl := Option.some.inj hr
    exact Int.ofNat_lt.mp hlt
  · cases hnone
  · cases hinvocation.symm.trans hafter
    exact Nat.le_refl _
  · obtain rfl := Option.some.inj hr
    exact Option.isSome_iff_ne_none.mpr hwritten
  · cases hnone

theorem observe_unmetered {job : Job} (hlive : job.live = true) (details : Details) :
    (job.observe details).previous_api_calls = job.previous_api_calls ∧
      (job.observe details).resumed = job.resumed ∧
      ((job.observe details).api_calls = job.api_calls ∨
        ∃ calls, details.api_calls = some calls ∧ ((job.observe details).api_calls : Int) ≤ max (job.api_calls : Int) calls) := by
  have haccounted : job.accounted = false := by
    simp only [Job.live, Bool.and_eq_true, Bool.not_eq_true'] at hlive
    exact hlive.2
  rw [Job.observe, if_neg (by simp [haccounted])]
  refine ⟨rfl, rfl, ?_⟩
  cases hcalls : details.api_calls with
  | none => exact Or.inl rfl
  | some calls =>
    refine Or.inr ⟨calls, rfl, ?_⟩
    show ((max (job.api_calls : Int) (min job.api_budget calls)).toNat : Int) ≤ _
    omega

/-- An event of a running session. -/
theorem Metered.event (h : life.Metered) (htold : life.Told) (hlive : life.job.live = true) {details : Details}
    {invocation : Invocation} (hinvocation : life.invocation = some invocation)
    (hcalls : ∀ calls, details.api_calls = some calls → calls ≤ (invocation.calls : Int)) :
    Metered { life with job := life.job.observe details, current := life.current.add details.usage } := by
  have hclosed := h.pending hlive
  obtain ⟨hprevious, hresumed, hreported⟩ := observe_unmetered hlive details
  have hover (hover : life.current.closed = true) : False := by
    rw [hclosed] at hover
    cases hover
  refine ⟨h.past, by rw [observe_live]; exact h.closed, fun hnow => (hover hnow).elim, fun hnow => (hover hnow).elim,
    fun hlt _ => ⟨invocation, hinvocation, ?_⟩, fun result hresult hlt => ?_, h.copied, h.started,
    fun hnot hwritten => ⟨((h.written (hresumed ▸ hnot) hwritten).1), fun hnone => ?_⟩, fun hsaved => ?_,
    h.same.trans hprevious.symm⟩
  · rw [hprevious] at hlt ⊢
    rcases hreported with hsame | ⟨calls, hsome, hle⟩
    · obtain ⟨before, hbefore, hbeforelt⟩ := h.calls (hsame ▸ hlt) hlive
      cases hbefore.symm.trans hinvocation
      exact hbeforelt
    · have hbound := hcalls calls hsome
      by_cases hbefore : life.job.previous_api_calls < life.job.api_calls
      · obtain ⟨before, hsame, hbeforelt⟩ := h.calls hbefore hlive
        cases hsame.symm.trans hinvocation
        exact hbeforelt
      · have hlt' : life.job.previous_api_calls < (life.job.observe details).api_calls := hlt
        omega
  · rw [hprevious] at hlt ⊢
    exact h.result result hresult hlt
  · exact absurd ((htold.first (hresumed ▸ hnot)).unwritten hlive hnone) hwritten
  · rw [h.unsettled hlive] at hsaved
    cases hsaved

/-- Settling closes the invocation. -/
theorem Metered.finish (h : life.Metered) (htold : life.Told) {result : Result}
    (hresult : life.result = some result) :
    Metered { life with
      job := life.job.settled result
      invocation := none
      result := none
      current := (life.current.add result.usage).close (life.job.previous_api_calls < result.calls life.job)
        result.usage_known } := by
  have hlive := htold.pending hresult
  have hclose : (life.current.add result.usage).close
      (life.job.previous_api_calls < result.calls life.job) result.usage_known =
      { life.current.add result.usage with
        closed := true
        charged := life.job.previous_api_calls < result.calls life.job
        known := result.usage_known } :=
    if_neg (by rw [show (life.current.add result.usage).closed = false from h.pending hlive]; decide)
  have hidle := (show (life.job.settled result).live = false by simp [Job.settled, merge_usage, Job.live])
  rw [hclose]
  refine ⟨h.past, by rw [hidle]; rfl, fun _ hcharged => ?_, fun _ hcharged => ?_, fun _ hlive => ?_,
    fun _ hnone => ?_, fun _ hnone => ?_, fun _ hnone => ?_, fun hnot hwritten => ⟨fun _ hnone => ?_, fun _ => ?_⟩,
    fun hsaved => ?_, h.same⟩
  · have hlt : (life.job.previous_api_calls : Int) < result.calls life.job := of_decide_eq_true hcharged
    cases hknown : result.usage_known with
    | true => exact Or.inl rfl
    | false =>
      right
      have hcalls : (life.job.settled result).api_calls ≠ 0 := by
        show (result.calls life.job).toNat ≠ 0
        omega
      show (decide ((life.job.settled result).api_calls ≠ 0) && !result.usage_known && true) = true
      rw [hknown]
      simpa using hcalls
  · have hlt : (life.job.previous_api_calls : Int) < result.calls life.job := of_decide_eq_true hcharged
    show life.job.previous_api_calls < life.ledger.used
    unfold Result.calls at hlt
    by_cases hcalls : life.job.previous_api_calls < life.job.api_calls
    · exact h.journaled hlive hcalls
    · exact h.result result hresult (by omega)
  · rw [hidle] at hlive
    cases hlive
  · cases hnone
  · cases hnone
  · cases hnone
  · cases hnone
  · exact (h.written hnot hwritten).1 result hresult
  · rw [h.unsettled hlive] at hsaved
    cases hsaved

theorem close_closed (report : Report) (charged known : Bool) : (report.close charged known).closed = true := by
  unfold Report.close
  split
  · assumption
  · rfl

/-- What the next process knows of the current invocation. -/
theorem Metered.restored (h : life.Metered) (htold : life.Told) {status : JobStatus}
    (hsafe : life.Safe (.restore status)) (hsettled : life.Settled (.restore status)) {report : Report}
    (hreport : report = (life.current.add life.lost).close (life.job.previous_api_calls < life.ledger.used)
      (life.result.any Result.usage_known)) :
    (report.charged = true → life.job.previous_api_calls < life.ledger.used) ∧
      (report.charged = true → report.known = true ∨ (life.restored status).unmetered = true) ∧
      (life.job.resumed = false → life.ledger.usage ≠ none → report.known = true) ∧
      (life.saved.accounted = true → report.charged = true → report.known = true ∨ life.saved.usage_known = false) := by
  have hwritten (hnot : life.job.resumed = false) (hsome : life.ledger.usage ≠ none) : report.known = true := by
    obtain ⟨hpending, hdone⟩ := h.written hnot hsome
    cases hclosed : life.current.closed with
    | true =>
      have hresult : life.result = none := by
        refine (htold.idle ?_).2
        rw [h.closed] at hclosed
        simpa using hclosed
      rw [hreport, Report.close, if_pos (show (life.current.add life.lost).closed = true from hclosed)]
      exact hdone hresult
    | false =>
      rw [hreport, Report.close, if_neg (by simp [show (life.current.add life.lost).closed = false from hclosed])]
      cases hresult : life.result with
      | none =>
        have hlive : life.job.live = true := by
          rw [h.closed] at hclosed
          simpa using hclosed
        exact absurd ((htold.first hnot).unwritten hlive hresult) hsome
      | some result => exact hpending result hresult
  cases hclosed : life.current.closed with
  | true =>
    have hsame : report = life.current.add life.lost := by
      rw [hreport, Report.close, if_pos (show (life.current.add life.lost).closed = true from hclosed)]
    have hcharged : report.charged = life.current.charged := by rw [hsame]; rfl
    have hknown : report.known = life.current.known := by rw [hsame]; rfl
    have hused := h.charged hclosed
    refine ⟨fun hcharge => hused (hcharged ▸ hcharge), fun hcharge => ?_, hwritten, fun hsaved hcharge => ?_⟩
    · cases hunfinished : life.saved.status.unfinished with
      | false =>
        have hjob : life.restored status = life.job := by
          rw [Life.restored, if_neg (by simp [hunfinished]), htold.saved hunfinished]
        rw [hjob, hknown]
        exact h.current hclosed (hcharged ▸ hcharge)
      | true =>
        have hlt := hused (hcharged ▸ hcharge)
        rcases hsettled with hsaved | hle | hsome
        · rcases (h.saved hsaved).2 (hcharged ▸ hcharge) with hnow | hunknown
          · exact Or.inl (hknown.trans hnow)
          · right
            rw [Life.restored, if_pos hunfinished]
            show (decide (life.ledger.used ≠ 0) && !life.saved.usage_known && life.saved.accounted) = true
            rw [hunknown, hsaved]
            simp only [Bool.not_false, Bool.and_true, decide_eq_true_eq]
            omega
        · omega
        · rcases hsafe hunfinished with ⟨hnone, -⟩ | ⟨-, hnot⟩
          · exact absurd hnone hsome
          · exact Or.inl (hwritten (htold.same ▸ hnot) hsome)
    · rw [hknown]
      exact (h.saved hsaved).2 (hcharged ▸ hcharge)
  | false =>
    have hlive : life.job.live = true := by
      rw [h.closed] at hclosed
      simpa using hclosed
    have hsame : report.charged = decide (life.job.previous_api_calls < life.ledger.used) := by
      rw [hreport, Report.close, if_neg (by simp [show (life.current.add life.lost).closed = false from hclosed])]
    refine ⟨fun hcharge => of_decide_eq_true (hsame ▸ hcharge), fun hcharge => ?_, hwritten, fun hsaved _ => ?_⟩
    · have hlt : life.job.previous_api_calls < life.ledger.used := of_decide_eq_true (hsame ▸ hcharge)
      rcases hsettled with hsaved | hle | hsome
      · rw [h.unsettled hlive] at hsaved
        cases hsaved
      · omega
      · rcases hsafe (htold.unfinished hlive) with ⟨hnone, -⟩ | ⟨-, hnot⟩
        · exact absurd hnone hsome
        · exact Or.inl (hwritten (htold.same ▸ hnot) hsome)
    · rw [h.unsettled hlive] at hsaved
      cases hsaved

theorem Metered.restore (h : life.Metered) (htold : life.Told) {status : JobStatus}
    (hstatus : status = .resume_pending ∨ status = .interrupted ∨ status = .stale)
    (hsafe : life.Safe (.restore status)) (hsettled : life.Settled (.restore status)) :
    Metered { life with
      job := life.restored status
      invocation := none
      result := none
      current := (life.current.add life.lost).close (life.job.previous_api_calls < life.ledger.used)
        (life.result.any Result.usage_known) } := by
  obtain ⟨hcharged, hknown, hwritten, hsaved⟩ := h.restored htold hsafe hsettled rfl
  have hidle := restored_idle life hstatus
  have hprevious : (life.restored status).previous_api_calls = life.job.previous_api_calls := by
    rw [← h.same]
    unfold Life.restored
    split <;> rfl
  have hresumed : (life.restored status).resumed = life.job.resumed := by
    rw [← htold.same]
    unfold Life.restored
    split <;> rfl
  refine ⟨h.past, ?_, fun _ => hknown, fun _ hcharge => ?_, fun _ hlive => ?_, fun _ hnone => ?_,
    fun _ hnone => ?_, fun _ hnone => ?_, fun hnot hsome => ⟨fun _ hnone => ?_, fun _ => ?_⟩,
    fun hnow => ⟨close_closed .., hsaved hnow⟩, h.same.trans hprevious.symm⟩
  · rw [hidle]
    exact close_closed ..
  · show (life.restored status).previous_api_calls < life.ledger.used
    rw [hprevious]
    exact hcharged hcharge
  · rw [hidle] at hlive
    cases hlive
  · cases hnone
  · cases hnone
  · cases hnone
  · cases hnone
  · exact hwritten (hresumed ▸ hnot) hsome

/-- A job is resumed only while every finished invocation is known. -/
theorem Metered.resume (h : life.Metered) (htold : life.Told) (hstatus : life.job.status = .resume_pending)
    (hmetered : life.job.unmetered = false) {job : Job}
    (hjob : job = { life.job.extended with reserved_calls := 1 }.restarted) :
    Metered { life with job := job, saved := job, current := {}, past := life.current :: life.past } := by
  have hidle : life.job.live = false := by
    rw [Job.live, hstatus]
    rfl
  obtain ⟨hinvocation, hresult⟩ := htold.idle hidle
  have hclosed := h.over hidle
  subst hjob
  refine ⟨fun report hreport => ?_, rfl, fun hover => ?_, fun hover => ?_, fun hlt => ?_, by simp [hresult],
    by simp [hinvocation], by simp [hinvocation], fun hnot => ?_, fun hsaved => ?_, rfl⟩
  · rcases List.mem_cons.mp hreport with rfl | hreport
    · refine ⟨hclosed, fun hcharged => (h.current hclosed hcharged).resolve_right ?_⟩
      rw [hmetered]
      exact Bool.false_ne_true
    · exact h.past report hreport
  · cases hover
  · cases hover
  · exact absurd hlt (Nat.lt_irrefl _)
  · cases hnot
  · cases hsaved

theorem Metered.step (h : life.Metered) (htold : life.Told) {occurrence : Occurrence}
    (hsafe : life.Safe occurrence) (hsettled : life.Settled occurrence) (happly : life.apply occurrence = some next) :
    next.Metered := by
  cases occurrence with
  | launch changed restricted =>
    simp only [apply] at happly
    split at happly
    · rename_i hcan
      obtain rfl := Option.some.inj happly
      refine h.ledger htold hcan.1 hcan.2.2 ?_ rfl ?_ fun before hbefore => ?_
      · split <;> rfl
      · exact Nat.le_refl _
      · cases hcan.2.1.symm.trans hbefore
    · cases happly
  | admitting =>
    obtain ⟨invocation, hinvocation, happly⟩ := Option.bind_eq_some_iff.mp happly
    split at happly
    · rename_i hresult
      obtain rfl := Option.some.inj happly
      refine h.ledger htold (htold.live hinvocation) hresult (htold.copied invocation hinvocation hresult) rfl ?_
        fun before hbefore => ?_
      · show invocation.previous_calls + invocation.started.toNat ≤ invocation.previous_calls + 1
        exact Nat.add_le_add_left (Bool.toNat_le _) _
      · cases hbefore.symm.trans hinvocation
        exact Nat.le_refl _
    · cases happly
  | admitted =>
    obtain ⟨invocation, hinvocation, happly⟩ := Option.bind_eq_some_iff.mp happly
    split at happly
    · rename_i hcan
      obtain rfl := Option.some.inj happly
      refine h.ledger htold (htold.live hinvocation) hcan.1 rfl (h.copied invocation hinvocation hcan.1) ?_
        fun before hbefore => ?_
      · exact hcan.2.ge
      · cases hbefore.symm.trans hinvocation
        exact Nat.add_le_add_left (Bool.toNat_le _) _
    · cases happly
  | thread =>
    obtain ⟨invocation, hinvocation, happly⟩ := Option.bind_eq_some_iff.mp happly
    split at happly
    · rename_i hcan
      obtain rfl := Option.some.inj happly
      refine h.ledger htold (htold.live hinvocation) hcan.1 (htold.copied invocation hinvocation hcan.1) rfl ?_
        fun before hbefore => ?_
      · exact (h.started invocation hinvocation).trans (h.copied invocation hinvocation hcan.1).ge
      · cases hbefore.symm.trans hinvocation
        exact Nat.le_refl _
    · cases happly
  | reply status total =>
    obtain ⟨invocation, hinvocation, happly⟩ := Option.bind_eq_some_iff.mp happly
    dsimp only at happly
    split at happly
    · obtain rfl := Option.some.inj happly
      exact h.replied (htold.live hinvocation) hinvocation status total _
    · cases happly
  | refuse status =>
    obtain ⟨invocation, hinvocation, happly⟩ := Option.bind_eq_some_iff.mp happly
    split at happly
    · rename_i hcan
      obtain rfl := Option.some.inj happly
      refine h.dropped htold (htold.live hinvocation) hcan.1 fun hlt => ?_
      have hstarted := h.started invocation hinvocation
      have hcalls : invocation.previous_calls ≤ invocation.calls := Nat.le_add_right _ _
      have hlt' : (life.job.previous_api_calls : Int) < invocation.previous_calls := hlt
      omega
    · cases happly
  | abort status =>
    simp only [apply] at happly
    split at happly
    · rename_i hlive
      obtain rfl := Option.some.inj happly
      have hresult : life.result = none := hsafe
      have hlost : life.current.add life.lost = life.current := by
        unfold Life.lost
        rw [hresult]
        rfl
      rw [hlost]
      exact h.dropped htold hlive hresult fun hlt => h.journaled hlive (Int.ofNat_lt.mp hlt)
    · cases happly
  | event details =>
    simp only [apply] at happly
    split at happly
    · rename_i hcan
      obtain ⟨hlive, hcalls, -, -⟩ := hcan
      obtain rfl := Option.some.inj happly
      obtain ⟨invocation, hinvocation, hcalls⟩ := (Option.any_eq_true ..).mp hcalls
      refine h.event htold hlive hinvocation fun calls hsome => ?_
      rw [hsome] at hcalls
      exact of_decide_eq_true hcalls
    · cases happly
  | save =>
    obtain rfl := Option.some.inj happly
    refine ⟨h.past, h.closed, h.current, h.charged, h.calls, h.result, h.copied, h.started, h.written,
      fun hsaved => ?_, rfl⟩
    have hidle : life.job.live = false := by
      have haccounted : life.job.accounted = true := hsaved
      simp [Job.live, haccounted]
    refine ⟨h.over hidle, fun hcharged => (h.current (h.over hidle) hcharged).imp_right fun hunmetered => ?_⟩
    simp only [Job.unmetered, Bool.and_eq_true, Bool.not_eq_true'] at hunmetered
    exact hunmetered.1.2
  | finish =>
    obtain ⟨result, hresult, happly⟩ := Option.bind_eq_some_iff.mp happly
    split at happly
    · cases happly
    · obtain rfl := Option.some.inj happly
      exact h.finish htold hresult
  | restore status =>
    simp only [apply] at happly
    split at happly
    · obtain rfl := Option.some.inj happly
      exact h.restore htold ‹_› hsafe hsettled
    · cases happly
  | resume =>
    simp only [apply] at happly
    split at happly
    · obtain rfl := Option.some.inj happly
      exact h.resume htold ‹_› hsettled rfl
    · cases happly

/-- What a session or the controller does with a job, between its admission and the end of the process. -/
def Occurrence.inside : Occurrence → Bool
  | .restore _ | .resume => false
  | _ => true

end Life

/-! ### A campaign with a cap -/

section Campaign
variable {config : Config} {ok : Life → Occurrence → Prop} {lives : List Life}

def jobs (lives : List Life) : List Job := lives.map Life.job

/-- The jobs of a campaign and the configuration of its present process, while every step is as `ok`
says. New jobs and resumed ones are admitted by a reservation; a process ends with all its jobs, and
the next one may be given other limits. -/
inductive Reached (ok : Life → Occurrence → Prop) : Config → List Life → Prop where
  | start (config : Config) : Reached ok config []
  | enrol {config : Config} {lives : List Life} {life : Life} (hlives : Reached ok config lives)
      (hreserves : Reserves config (jobs lives)) (hborn : life.Born) : Reached ok config (lives ++ [life])
  | resume {config : Config} {lives : List Life} {life next : Life} {n : Nat} (hlives : Reached ok config lives)
      (hreserves : Reserves config (jobs lives)) (hlife : lives[n]? = some life) (hok : ok life .resume)
      (happly : life.apply .resume = some next) : Reached ok config (lives.set n next)
  | turn {config : Config} {lives : List Life} {life next : Life} {n : Nat} {occurrence : Occurrence}
      (hlives : Reached ok config lives) (hlife : lives[n]? = some life)
      (hinside : Life.Occurrence.inside occurrence = true) (hok : ok life occurrence)
      (happly : life.apply occurrence = some next) : Reached ok config (lives.set n next)
  | restart {config config' : Config} {lives nexts : List Life} (hlives : Reached ok config lives)
      (hrestored : List.Forall₂ (fun life next => ∃ status, ok life (.restore status) ∧
        life.apply (.restore status) = some next) lives nexts) : Reached ok config' nexts

/-- Every invocation that is over and was charged is known, and all that was reported is below the cap. -/
structure Capped (cap : Nat) (lives : List Life) : Prop where
  known : ∀ life ∈ lives, ∀ report ∈ life.current :: life.past,
    report.closed = true → report.charged = true → report.known = true
  below : (lives.map fun life => life.sum .input + life.sum .output).sum < cap

/-- Reports are kept, and no process ends with a charged invocation that nobody knows of. -/
def Accounted (life : Life) (occurrence : Occurrence) : Prop :=
  life.Safe occurrence ∧ life.Settled occurrence

/-- The flag of a job keeps track of its last invocation under any configuration. -/
theorem reached_metered (h : Reached Accounted config lives) : ∀ life ∈ lives, life.Told ∧ life.Metered := by
  induction h with
  | start config => exact fun _ hlife => by cases hlife
  | enrol hlives hreserves hborn ih =>
    intro life hlife
    rcases List.mem_append.mp hlife with hlife | hlife
    · exact ih life hlife
    · rw [List.mem_singleton.mp hlife]
      exact ⟨hborn.told, hborn.metered⟩
  | @resume config lives before next n hlives hreserves hbefore hok happly ih
  | @turn config lives before next n occurrence hlives hbefore hinside hok happly ih =>
    intro life hlife
    rcases List.mem_or_eq_of_mem_set hlife with hlife | rfl
    · exact ih life hlife
    · obtain ⟨htold, hmetered⟩ := ih before (List.mem_of_getElem? hbefore)
      exact ⟨(htold.step hok.1 happly).1, hmetered.step htold hok.1 hok.2 happly⟩
  | restart hlives hrestored ih =>
    intro life hlife
    obtain ⟨before, hbefore, status, hok, happly⟩ := mem_of_forall₂ hrestored hlife
    obtain ⟨htold, hmetered⟩ := ih before hbefore
    exact ⟨(htold.step hok.1 happly).1, hmetered.step htold hok.1 hok.2 happly⟩

/-- **The token cap**: as long as the usage of every charged invocation reaches the controller before
its process ends or its job is resumed, a call is admitted only when all of them are known and below
the cap of the present process. -/
theorem token_cap_kept {cap : Nat} (hcap : config.tokens = some cap) (h : Reached Accounted config lives)
    (hreserves : Reserves config (jobs lives)) : Capped cap lives := by
  have hmetered := reached_metered h
  obtain ⟨hunmetered, hbelow⟩ := reserves_metered hcap hreserves
  refine ⟨fun life hlife report hreport hclosed hcharged => ?_, ?_⟩
  · obtain ⟨-, hlives⟩ := hmetered life hlife
    rcases List.mem_cons.mp hreport with rfl | hreport
    · refine (hlives.current hclosed hcharged).resolve_right ?_
      rw [hunmetered life.job (List.mem_map_of_mem hlife)]
      exact Bool.false_ne_true
    · exact (hlives.past report hreport).known hcharged
  · have hsum : (lives.map fun life => life.sum .input + life.sum .output) =
        (jobs lives).map fun job => job.input_tokens + job.output_tokens := by
      rw [jobs, List.map_map]
      refine List.map_congr_left fun life hlife => ?_
      obtain ⟨htold, -⟩ := hmetered life hlife
      rw [← htold.total, ← htold.total]
      rfl
    rw [hsum]
    exact hbelow

/-- What the only job of a campaign does by itself, one thing after the other. -/
theorem reached_of_run {occurrences : List Occurrence} {life next : Life} (h : Reached ok config [life])
    (hinside : occurrences.all Life.Occurrence.inside = true)
    (hok : ∀ life, ∀ occurrence ∈ occurrences, ok life occurrence) (hrun : life.run occurrences = some next) :
    Reached ok config [next] := by
  induction occurrences generalizing life with
  | nil => exact Option.some.inj hrun ▸ h
  | cons occurrence occurrences ih =>
    obtain ⟨after, happly, hrun⟩ := Option.bind_eq_some_iff.mp hrun
    rw [List.all_cons, Bool.and_eq_true] at hinside
    refine ih (h.turn (n := 0) rfl hinside.1 (hok life occurrence (List.mem_cons_self ..)) happly) hinside.2
      (fun life occurrence hmem => hok life occurrence (List.mem_cons_of_mem _ hmem)) hrun

theorem admitted_reached (hreserves : Reserves config (jobs [])) : Reached ok config [Life.admitted] :=
  (Reached.start config).enrol hreserves Life.admitted_born

end Campaign

/-- An invocation is settled before there is a cap; the next process has one, and may admit another. -/
theorem admitted_capped : ∃ lives : List Life, Reached Accounted { tokens := some 200 } lives ∧
    Reserves { tokens := some 200 } (jobs lives) ∧ Capped 200 lives := by
  obtain ⟨life, hrun, next, hrestore, hsaved, hreserves⟩ : ∃ life,
      Life.admitted.run (Life.invoked .completed ⟨100, 20⟩) = some life ∧ ∃ next,
      life.apply (.restore .resume_pending) = some next ∧
      (life.saved.accounted = true ∧ life.saved.status.unfinished = false) ∧
      Reserves { tokens := some 200 } (jobs [next]) := ⟨_, rfl, _, rfl, by decide, 0, 0, 1, 1, _, rfl⟩
  have hfirst : Reached Accounted {} [life] := by
    refine reached_of_run (admitted_reached ⟨0, 0, 1, 1, _, rfl⟩) (by decide) (fun life occurrence hmem => ?_) hrun
    simp only [Life.invoked, List.mem_cons, List.not_mem_nil, or_false] at hmem
    rcases hmem with rfl | rfl | rfl | rfl | rfl | rfl | rfl <;> exact ⟨trivial, trivial⟩
  have hsafe : life.Safe (.restore .resume_pending) := by
    intro hunfinished
    rw [hsaved.2] at hunfinished
    cases hunfinished
  have hreached : Reached Accounted { tokens := some 200 } [next] :=
    .restart hfirst (.cons ⟨_, ⟨hsafe, Or.inl hsaved.1⟩, hrestore⟩ .nil)
  exact ⟨[next], hreached, hreserves, token_cap_kept rfl hreached hreserves⟩

/-- The controller crashes while the native process runs; the next process admits a call although
nobody knows what the invocation used. -/
theorem crash_unmetered : ¬ ∀ lives : List Life, Reached (fun _ _ => True) { tokens := some 200 } lives →
    Reserves { tokens := some 200 } (jobs lives) → Capped 200 lives := by
  intro h
  obtain ⟨running, hrun, crashed, hcrash, hreserves, hcharged⟩ : ∃ running,
      Life.admitted.run [.launch false false, .admitting, .admitted] = some running ∧ ∃ crashed,
      running.apply (.restore .resume_pending) = some crashed ∧ Reserves { tokens := some 200 } (jobs [crashed]) ∧
      crashed.current.closed = true ∧ crashed.current.charged = true ∧ crashed.current.known = false :=
    ⟨_, rfl, _, rfl, ⟨0, 0, 1, 1, _, rfl⟩, by decide⟩
  have hrunning : Reached (fun _ _ => True) { tokens := some 200 } [running] :=
    reached_of_run (admitted_reached ⟨0, 0, 1, 1, _, rfl⟩) (by decide) (fun _ _ _ => trivial) hrun
  have hreached : Reached (fun _ _ => True) { tokens := some 200 } [crashed] :=
    .restart hrunning (.cons ⟨_, trivial, hcrash⟩ .nil)
  obtain ⟨hclosed, hcharge, hunknown⟩ := hcharged
  have hknown := (h _ hreached hreserves).known crashed (List.mem_cons_self ..) crashed.current
    (List.mem_cons_self ..) hclosed hcharge
  rw [hunknown] at hknown
  cases hknown

end LeanFlow.Jobs
