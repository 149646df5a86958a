import LeanFlow.Jobs.Books
import LeanFlow.Jobs.Native

/-! Token accounting over the invocations of a job.

While an invocation runs, the job's counters are the sum of what was reported, and
settling it keeps this. A resume takes the usage of the ledger instead, and that is
the usage of one invocation only. -/
namespace LeanFlow.Jobs
open General

/-! ### Counters -/

theorem replace_get (counters : Counters) (usage : Usage) (c : Counter) :
    (counters.replace usage).get c = (usage.get c).elim (counters.get c) Int.toNat := by
  cases c <;> rfl

theorem grows_get {counters : Counters} {usage : Usage} (h : counters.grows usage = true) {c : Counter} {u : Int}
    (hu : usage.get c = some u) : (counters.get c : Int) ≤ u := by
  simp only [Counters.grows, Bool.and_eq_true] at h
  cases c with
  | input =>
    have hget : usage.input_tokens = some u := hu
    rw [hget] at h
    exact of_decide_eq_true h.1
  | output =>
    have hget : usage.output_tokens = some u := hu
    rw [hget] at h
    exact of_decide_eq_true h.2

@[simp] theorem close_tokens (charged known : Bool) (report : Report) :
    (report.close charged known).tokens = report.tokens := by
  unfold Report.close
  split <;> rfl

/-- Merging a report of an invocation that has grown. -/
theorem merged_grown {total base reported : Nat} {usage : Option Int} (htotal : total = base + reported)
    (hgrown : ∀ u, usage = some u → (reported : Int) ≤ u) :
    merged total base usage = base + usage.elim reported Int.toNat := by
  unfold merged
  cases usage with
  | none => exact htotal
  | some u =>
    have hle := hgrown u rfl
    show (max (total : Int) (base + u)).toNat = base + u.toNat
    omega

theorem observe_total {job : Job} (h : job.accounted = false) (details : Details) (c : Counter) :
    (job.observe details).total c = merged (job.total c) (job.base c) (details.usage.get c) := by
  rw [Job.observe, if_neg (by simp [h]), merge_usage_total]
  cases c <;> rfl

theorem observe_base (job : Job) (details : Details) (c : Counter) : (job.observe details).base c = job.base c := by
  unfold Job.observe
  split
  · rfl
  · rw [merge_usage_base]
    cases c <;> rfl

theorem settled_total (result : Result) (job : Job) (c : Counter) :
    (job.settled result).total c = merged (job.total c) (job.base c) (result.usage.get c) := by
  cases c <;> rfl

theorem recount_total (ledger : Ledger) (job : Job) (status : JobStatus) (c : Counter) :
    Job.total { job.recount (some ledger.entry) with status := status } c =
      ((Usage.of ledger.usage).get c).elim (job.total c) Int.toNat := by
  cases c <;> rfl

/-! ### What was told and what was kept -/

namespace Life

/-- Of a job that was never resumed, the ledger keeps the usage of its only invocation. -/
structure First (life : Life) : Prop where
  only : life.past = []
  unwritten : life.job.live = true → life.result = none → life.ledger.usage = none
  current : ∀ c u, (Usage.of life.ledger.usage).get c = some u →
    (∀ result, life.result = some result → result.usage.get c = some u) ∧
      (life.result = none → (life.current.tokens.get c : Int) = u)

/-- The counters are the sums of the reports, and what a resume needs to find them again. -/
structure Told (life : Life) : Prop where
  total : ∀ c, life.job.total c = life.sum c
  base : life.job.live = true → ∀ c, life.job.base c = life.earlier c
  idle : life.job.live = false → life.invocation = none ∧ life.result = none
  grown : ∀ result, life.result = some result → ∀ c u, result.usage.get c = some u →
    (life.current.tokens.get c : Int) ≤ u
  written : ∀ result, life.result = some result → ∀ c u, result.usage.get c = some u →
    (Usage.of life.ledger.usage).get c = some u
  copied : ∀ invocation, life.invocation = some invocation → life.result = none →
    invocation.previous.usage = life.ledger.usage
  saved : life.saved.status.unfinished = false → life.saved = life.job
  same : life.saved.resumed = life.job.resumed
  first : life.job.resumed = false → life.First

/-- No session fails after its ledger is written, and a resume finds no report unsaved and no
usage in the ledger of a job that was resumed before. -/
def Safe (life : Life) : Occurrence → Prop
  | .abort _ => life.result = none
  | .restore _ => life.saved.status.unfinished = true →
    life.ledger.usage = none ∧ (∀ c, life.saved.total c = life.job.total c) ∨
      life.ledger.usage ≠ none ∧ life.saved.resumed = false
  | _ => True

/-- Steps that are always safe. -/
def calm : Occurrence → Bool
  | .abort _ | .restore _ => false
  | _ => true

theorem path_of_calm {occurrences : List Occurrence} {start life next : Life} (h : Path Safe start life)
    (hcalm : occurrences.all calm = true) (hrun : life.run occurrences = some next) : Path Safe start next := by
  induction occurrences generalizing life with
  | nil => exact Option.some.inj hrun ▸ h
  | cons occurrence occurrences ih =>
    obtain ⟨after, happly, hrun⟩ := Option.bind_eq_some_iff.mp hrun
    rw [List.all_cons, Bool.and_eq_true] at hcalm
    have hsafe : life.Safe occurrence := by cases occurrence <;> first | trivial | cases hcalm.1
    exact ih (h.step hsafe happly) hcalm.2 hrun

variable {life next : Life}

theorem live_unfinished {job : Job} (h : job.live = true) : job.status.unfinished = true := by
  simp only [Job.live, Bool.and_eq_true, beq_iff_eq] at h
  rw [h.1]
  rfl

theorem Born.told (h : life.Born) : life.Told := by
  obtain ⟨⟨hlive, -, -, -, hresumed⟩, hunused, hsaved, hledger, ⟨hinvocation, hresult⟩, hcurrent, hpast⟩ := h
  have hunfinished := live_unfinished hlive
  refine ⟨fun c => ?_, fun _ c => ?_, fun h => ?_, ?_, ?_, ?_, fun h => ?_, by rw [hsaved], fun _ => ⟨hpast, ?_, ?_⟩⟩
  · rw [(hunused c).1, sum, earlier, hpast, hcurrent]
    cases c <;> rfl
  · rw [(hunused c).2, earlier, hpast]
    rfl
  · rw [hlive] at h
    cases h
  · simp [hresult]
  · simp [hresult]
  · simp [hinvocation]
  · rw [hsaved, hunfinished] at h
    cases h
  · intro _ _
    rw [hledger]
  · intro c u hu
    rw [hledger, of_get] at hu
    cases hu

/-- The ledger is rewritten by the session, which keeps the usage it found there. -/
theorem Told.ledger (h : life.Told) (hresult : life.result = none) {ledger : Ledger}
    {invocation : Option Invocation} (hinvocation : life.job.live = false → invocation = none)
    (husage : ledger.usage = life.ledger.usage)
    (hcopied : ∀ after, invocation = some after → after.previous.usage = life.ledger.usage) :
    Told { life with ledger := ledger, invocation := invocation } := by
  refine ⟨h.total, h.base, fun hlive => ⟨hinvocation hlive, hresult⟩, by simp [hresult], by simp [hresult],
    fun after hafter _ => (hcopied after hafter).trans husage.symm, h.saved, h.same, fun hresumed => ?_⟩
  obtain ⟨hpast, hunwritten, hcurrent⟩ := h.first hresumed
  exact ⟨hpast, fun hlive hnone => husage.trans (hunwritten hlive hnone), by rw [husage]; exact hcurrent⟩

theorem Told.live (h : life.Told) {invocation : Invocation} (hinvocation : life.invocation = some invocation) :
    life.job.live = true := by
  cases hlive : life.job.live with
  | true => rfl
  | false => cases hinvocation.symm.trans (h.idle hlive).1

theorem Told.pending (h : life.Told) {result : Result} (hresult : life.result = some result) :
    life.job.live = true := by
  cases hlive : life.job.live with
  | true => rfl
  | false => cases hresult.symm.trans (h.idle hlive).2

/-- A running job is not saved as finished. -/
theorem Told.unfinished (h : life.Told) (hlive : life.job.live = true) : life.saved.status.unfinished = true := by
  cases hsaved : life.saved.status.unfinished with
  | true => rfl
  | false =>
    rw [h.saved hsaved, live_unfinished hlive] at hsaved
    cases hsaved

/-- A result without usage, from a session that did not write its ledger. -/
theorem Told.result (h : life.Told) (hresult : life.result = none) (hlive : life.job.live = true)
    {result : Result} (husage : result.usage = {}) : Told { life with result := some result } := by
  have hget (c : Counter) : result.usage.get c = none := by
    rw [husage]
    cases c <;> rfl
  refine ⟨h.total, h.base, fun hidle => ?_, fun r hr c u hu => ?_, fun r hr c u hu => ?_, fun _ _ hnone => ?_,
    h.saved, h.same, fun hresumed => ?_⟩
  · rw [hlive] at hidle
    cases hidle
  · obtain rfl := Option.some.inj hr
    rw [hget] at hu
    cases hu
  · obtain rfl := Option.some.inj hr
    rw [hget] at hu
    cases hu
  · cases hnone
  · obtain ⟨hpast, hunwritten, -⟩ := h.first hresumed
    refine ⟨hpast, fun _ hnone => ?_, fun c u hu => ?_⟩
    · cases hnone
    · rw [show life.ledger.usage = none from hunwritten hlive hresult, of_get] at hu
      cases hu

/-- The session is done and has written its ledger. -/
theorem Told.replied (h : life.Told) {invocation : Invocation} (hinvocation : life.invocation = some invocation)
    (status : JobStatus) {total usage : Option Counters}
    (hgrows : life.current.tokens.grows (.of usage) = true) :
    Told { life with ledger := journal invocation total usage, result := some (replied invocation status usage) } := by
  have hlive := h.live hinvocation
  refine ⟨h.total, h.base, fun hidle => ?_, fun r hr c u hu => ?_, fun r hr c u hu => ?_, fun _ _ hnone => ?_,
    h.saved, h.same, fun hresumed => ⟨(h.first hresumed).only, fun _ hnone => ?_, fun c u hu => ⟨?_, fun hnone => ?_⟩⟩⟩
  · rw [hlive] at hidle
    cases hidle
  · obtain rfl := Option.some.inj hr
    exact grows_get hgrows hu
  · obtain rfl := Option.some.inj hr
    exact hu
  · cases hnone
  · cases hnone
  · rintro r hr
    obtain rfl := Option.some.inj hr
    exact hu
  · cases hnone

/-- What a report adds to the sum. -/
theorem add_get (report : Report) (usage : Usage) (c : Counter) :
    (report.add usage).tokens.get c = (usage.get c).elim (report.tokens.get c) Int.toNat :=
  replace_get report.tokens usage c

/-- The counter of a running job is merged with a report that has grown. -/
theorem Told.merged (h : life.Told) (hlive : life.job.live = true) {usage : Usage} {c : Counter}
    (hgrown : ∀ u, usage.get c = some u → (life.current.tokens.get c : Int) ≤ u) :
    merged (life.job.total c) (life.job.base c) (usage.get c) =
      life.earlier c + (life.current.add usage).tokens.get c := by
  have htotal : life.job.total c = life.job.base c + life.current.tokens.get c := by
    rw [h.base hlive]
    exact h.total c
  rw [merged_grown htotal hgrown, h.base hlive, add_get]

/-- An event of a running session. -/
theorem Told.event (h : life.Told) (hlive : life.job.live = true) {details : Details}
    (hgrows : life.current.tokens.grows details.usage = true)
    (hlast : ∀ result, life.result = some result → details.usage = {} ∨ details.usage = result.usage) :
    Told { life with job := life.job.observe details, current := life.current.add details.usage } := by
  have haccounted : life.job.accounted = false := by
    simp only [Job.live, Bool.and_eq_true, Bool.not_eq_true'] at hlive
    exact hlive.2
  have hresumed : (life.job.observe details).resumed = life.job.resumed := by
    unfold Job.observe
    split <;> rfl
  refine ⟨fun c => ?_, fun _ c => ?_, fun hidle => ?_, fun result hresult c u hu => ?_, h.written, h.copied,
    fun hsaved => ?_, h.same.trans hresumed.symm, fun hnot => ?_⟩
  · rw [observe_total haccounted]
    exact h.merged hlive fun u hu => grows_get hgrows hu
  · rw [observe_base]
    exact h.base hlive c
  · rw [observe_live, hlive] at hidle
    cases hidle
  · rw [add_get]
    rcases hlast result hresult with hnone | hsame
    · rw [hnone, show ({} : Usage).get c = none by cases c <;> rfl]
      exact h.grown result hresult c u hu
    · rw [hsame, hu]
      have hnonneg := h.grown result hresult c u hu
      show (u.toNat : Int) ≤ u
      omega
  · rw [h.unfinished hlive] at hsaved
    cases hsaved
  · rw [hresumed] at hnot
    obtain ⟨honly, hunwritten, hcurrent⟩ := h.first hnot
    refine ⟨honly, fun _ hnone => hunwritten hlive hnone, fun c u hu => ⟨(hcurrent c u hu).1, fun hnone => ?_⟩⟩
    rw [show life.ledger.usage = none from hunwritten hlive hnone, of_get] at hu
    cases hu

/-- Settling adds what the session returned. -/
theorem Told.finish (h : life.Told) {result : Result} (hresult : life.result = some result) (charged known : Bool) :
    Told { life with
      job := life.job.settled result
      invocation := none
      result := none
      current := (life.current.add result.usage).close charged known } := by
  have hlive := h.pending hresult
  refine ⟨fun c => ?_, fun hsettled => ?_, fun _ => ⟨rfl, rfl⟩, fun _ hnone => ?_, fun _ hnone => ?_,
    fun _ hnone => ?_, fun hsaved => ?_, h.same, fun hnot => ?_⟩
  · rw [settled_total, h.merged hlive (h.grown result hresult c)]
    show _ = life.earlier c + ((life.current.add result.usage).close charged known).tokens.get c
    rw [close_tokens]
  · rw [show (life.job.settled result).live = false by simp [Job.settled, merge_usage, Job.live]] at hsettled
    cases hsettled
  · cases hnone
  · cases hnone
  · cases hnone
  · rw [h.unfinished hlive] at hsaved
    cases hsaved
  · obtain ⟨honly, -, hcurrent⟩ := h.first hnot
    refine ⟨honly, fun hsettled => ?_, fun c u hu => ⟨fun _ hnone => ?_, fun _ => ?_⟩⟩
    · rw [show (life.job.settled result).live = false by simp [Job.settled, merge_usage, Job.live]] at hsettled
      cases hsettled
    · cases hnone
    · show (((life.current.add result.usage).close charged known).tokens.get c : Int) = u
      have husage := (hcurrent c u hu).1 result hresult
      have hgrown := h.grown result hresult c u husage
      rw [close_tokens, add_get, husage]
      show (u.toNat : Int) = u
      omega

/-! ### A resume that finds everything -/

/-- The usage that is dropped is the one the ledger was left with. -/
theorem lost_cases (life : Life) (c : Counter) :
    life.lost.get c = none ∨ ∃ result u, life.result = some result ∧ result.usage.get c = some u ∧
      life.lost.get c = some u := by
  unfold Life.lost
  cases life.result with
  | none =>
    left
    cases c <;> rfl
  | some result =>
    cases hu : result.usage.get c with
    | none => exact Or.inl hu
    | some u => exact Or.inr ⟨result, u, rfl, hu, hu⟩

/-- What the current report is once that usage is added to it. -/
def found (life : Life) (c : Counter) : Nat := (life.lost.get c).elim (life.current.tokens.get c) Int.toNat

theorem found_get (life : Life) (charged known : Bool) (c : Counter) :
    ((life.current.add life.lost).close charged known).tokens.get c = life.found c := by
  rw [close_tokens, add_get, found]

theorem found_settled (h : life.result = none) (c : Counter) : life.found c = life.current.tokens.get c := by
  unfold Life.found Life.lost
  rw [h]
  cases c <;> rfl

theorem Told.found_le (h : life.Told) (c : Counter) : life.current.tokens.get c ≤ life.found c := by
  rcases lost_cases life c with hlost | ⟨result, u, hresult, hu, hlost⟩
  · rw [found, hlost]
    rfl
  · have hgrown := h.grown result hresult c u hu
    rw [found, hlost]
    show _ ≤ u.toNat
    omega

/-- A job that was never resumed: what is found is what the ledger keeps. -/
theorem First.found (h : life.First) {c : Counter} {u : Nat}
    (hu : (Usage.of life.ledger.usage).get c = some (u : Int)) : life.found c = u := by
  obtain ⟨hpending, hsettled⟩ := h.current c _ hu
  cases hresult : life.result with
  | none =>
    have hnow := hsettled hresult
    rw [found_settled hresult]
    omega
  | some result =>
    rw [Life.found, Life.lost, hresult]
    show (result.usage.get c).elim _ Int.toNat = u
    rw [hpending result hresult]
    rfl

theorem restored_idle (life : Life) {status : JobStatus}
    (hstatus : status = .resume_pending ∨ status = .interrupted ∨ status = .stale) :
    (life.restored status).live = false := by
  unfold restored
  split
  · rcases hstatus with rfl | rfl | rfl <;> rfl
  · cases hlive : life.saved.live with
    | false => rfl
    | true => exact absurd (live_unfinished hlive) ‹_›

/-- The counters of the next process are the sums of the reports. -/
theorem Told.restored_total (h : life.Told) {status : JobStatus} (hsafe : life.Safe (.restore status))
    (c : Counter) : (life.restored status).total c = life.earlier c + life.found c := by
  cases hunfinished : life.saved.status.unfinished with
  | false =>
    -- The job was finished for good: nothing is read from its ledger.
    have hrestored : life.restored status = life.job := by
      rw [restored, if_neg (by simp [hunfinished]), h.saved hunfinished]
    have hresult : life.result = none := by
      cases hresult : life.result with
      | none => rfl
      | some result =>
        rw [h.unfinished (h.pending hresult)] at hunfinished
        cases hunfinished
    rw [hrestored, found_settled hresult]
    exact h.total c
  | true =>
    rw [restored, if_pos hunfinished, recount_total]
    rcases hsafe hunfinished with ⟨hnone, hsame⟩ | ⟨hsome, hnot⟩
    · have hlost : life.lost.get c = none := by
        rcases lost_cases life c with hlost | ⟨result, u, hresult, hu, -⟩
        · exact hlost
        · have hwritten := h.written result hresult c u hu
          rw [hnone, of_get] at hwritten
          cases hwritten
      rw [hnone, of_get, found, hlost]
      exact (hsame c).trans (h.total c)
    · obtain ⟨usage, husage⟩ := Option.ne_none_iff_exists'.mp hsome
      have hu : (Usage.of life.ledger.usage).get c = some (usage.get c : Int) := by
        rw [husage, of_get]
        rfl
      have hfirst := h.first (h.same ▸ hnot)
      have hearlier : life.earlier c = 0 := by
        rw [earlier, hfirst.only]
        rfl
      rw [hu, hearlier, hfirst.found hu, zero_add]
      rfl

theorem Told.restore (h : life.Told) {status : JobStatus}
    (hstatus : status = .resume_pending ∨ status = .interrupted ∨ status = .stale)
    (hsafe : life.Safe (.restore status)) (charged known : Bool) :
    Told { life with
      job := life.restored status
      invocation := none
      result := none
      current := (life.current.add life.lost).close charged known } := by
  have hidle := restored_idle life hstatus
  have htotal := h.restored_total hsafe
  have hresumed : (life.restored status).resumed = life.saved.resumed := by
    unfold restored
    split <;> rfl
  refine ⟨fun c => ?_, fun hlive => ?_, fun _ => ⟨rfl, rfl⟩, fun _ hnone => ?_, fun _ hnone => ?_,
    fun _ hnone => ?_, fun hfinished => ?_, hresumed.symm, fun hnot => ?_⟩
  · show (life.restored status).total c =
      life.earlier c + ((life.current.add life.lost).close charged known).tokens.get c
    rw [found_get, htotal c]
  · rw [hidle] at hlive
    cases hlive
  · cases hnone
  · cases hnone
  · cases hnone
  · have hfinished' : life.saved.status.unfinished = false := hfinished
    exact (if_neg (by simp [hfinished'])).symm
  · have hfirst := h.first (h.same.symm.trans (hresumed.symm.trans hnot))
    refine ⟨hfirst.only, fun hlive => ?_, fun c u hu => ⟨fun _ hnone => ?_, fun _ => ?_⟩⟩
    · rw [hidle] at hlive
      cases hlive
    · cases hnone
    · have hu' := hu
      rw [of_get] at hu'
      obtain ⟨usage, husage, rfl⟩ := Option.map_eq_some_iff.mp hu'
      show (((life.current.add life.lost).close charged known).tokens.get c : Int) = _
      rw [found_get, hfirst.found hu]

theorem Told.restore_le (h : life.Told) {status : JobStatus} (hsafe : life.Safe (.restore status)) (c : Counter) :
    life.job.total c ≤ (life.restored status).total c := by
  rw [h.total c, h.restored_total hsafe, sum]
  exact Nat.add_le_add_left (h.found_le c) _

/-- A resumed invocation starts from what the earlier ones used. -/
theorem Told.resume (h : life.Told) (hstatus : life.job.status = .resume_pending) {job : Job}
    (hjob : job = { life.job.extended with reserved_calls := 1 }.restarted) :
    Told { life with job := job, saved := job, current := {}, past := life.current :: life.past } := by
  have hidle : life.job.live = false := by
    rw [Job.live, hstatus]
    rfl
  obtain ⟨hinvocation, hresult⟩ := h.idle hidle
  have htotal (c : Counter) : job.total c = life.job.total c := by
    rw [hjob]
    cases c <;> rfl
  have hbase (c : Counter) : job.base c = life.job.total c := by
    rw [hjob]
    cases c <;> rfl
  have hsum (c : Counter) : (((life.current :: life.past).map (·.tokens.get c)).sum : Nat) = life.sum c := by
    rw [List.map_cons, List.sum_cons, Nat.add_comm]
    rfl
  refine ⟨fun c => ?_, fun _ c => ?_, fun _ => ⟨hinvocation, hresult⟩, by simp [hresult], by simp [hresult],
    by simp [hinvocation], fun _ => rfl, rfl, fun hnot => ?_⟩
  · show job.total c = ((life.current :: life.past).map (·.tokens.get c)).sum + _
    rw [htotal, hsum, h.total c]
    cases c <;> rfl
  · show job.base c = ((life.current :: life.past).map (·.tokens.get c)).sum
    rw [hbase, hsum, h.total c]
  · have hyes : job.resumed = true := by rw [hjob]; rfl
    rw [hyes] at hnot
    cases hnot

/-! ### Every step -/

theorem merged_le (counter previous : Nat) (usage : Option Int) : counter ≤ merged counter previous usage := by
  unfold merged
  cases usage with
  | none => exact Nat.le_refl _
  | some u =>
    show counter ≤ (max (counter : Int) (previous + u)).toNat
    omega

/-- A safe step keeps the sums and lowers no counter. -/
theorem Told.step (h : life.Told) {occurrence : Occurrence} (hsafe : life.Safe occurrence)
    (happly : life.apply occurrence = some next) :
    next.Told ∧ ∀ c, life.job.total c ≤ next.job.total c := by
  cases occurrence with
  | launch changed restricted =>
    simp only [apply] at happly
    split at happly
    · rename_i hcan
      obtain rfl := Option.some.inj happly
      refine ⟨h.ledger hcan.2.2 (fun hidle => ?_) ?_ ?_, fun _ => Nat.le_refl _⟩
      · rw [hcan.1] at hidle
        cases hidle
      · split <;> rfl
      · rintro after hafter
        obtain rfl := Option.some.inj hafter
        dsimp only
        split <;> rfl
    · cases happly
  | admitting =>
    obtain ⟨invocation, hinvocation, happly⟩ := Option.bind_eq_some_iff.mp happly
    split at happly
    · rename_i hresult
      obtain rfl := Option.some.inj happly
      have hcopied := h.copied invocation hinvocation hresult
      refine ⟨h.ledger hresult (fun hidle => ?_) hcopied ?_, fun _ => Nat.le_refl _⟩
      · rw [h.live hinvocation] at hidle
        cases hidle
      · rintro after hafter
        obtain rfl := Option.some.inj hafter
        exact hcopied
    · cases happly
  | admitted =>
    obtain ⟨invocation, hinvocation, happly⟩ := Option.bind_eq_some_iff.mp happly
    split at happly
    · rename_i hcan
      obtain rfl := Option.some.inj happly
      refine ⟨h.ledger hcan.1 (fun hidle => ?_) rfl ?_, fun _ => Nat.le_refl _⟩
      · rw [h.live hinvocation] at hidle
        cases hidle
      · rintro after hafter
        obtain rfl := Option.some.inj hafter
        exact h.copied invocation hinvocation hcan.1
    · cases happly
  | thread =>
    obtain ⟨invocation, hinvocation, happly⟩ := Option.bind_eq_some_iff.mp happly
    split at happly
    · rename_i hcan
      obtain rfl := Option.some.inj happly
      have hcopied := h.copied invocation hinvocation hcan.1
      refine ⟨h.ledger hcan.1 (fun hidle => ?_) hcopied ?_, fun _ => Nat.le_refl _⟩
      · rw [h.live hinvocation] at hidle
        cases hidle
      · rintro after hafter
        obtain rfl := Option.some.inj hafter
        exact hcopied
    · cases happly
  | reply status total =>
    obtain ⟨invocation, hinvocation, happly⟩ := Option.bind_eq_some_iff.mp happly
    dsimp only at happly
    split at happly
    · rename_i hcan
      obtain rfl := Option.some.inj happly
      exact ⟨h.replied hinvocation status hcan.2, fun _ => Nat.le_refl _⟩
    · cases happly
  | refuse status =>
    obtain ⟨invocation, hinvocation, happly⟩ := Option.bind_eq_some_iff.mp happly
    split at happly
    · rename_i hcan
      obtain rfl := Option.some.inj happly
      exact ⟨h.result hcan.1 (h.live hinvocation) rfl, fun _ => Nat.le_refl _⟩
    · cases happly
  | abort status =>
    simp only [apply] at happly
    split at happly
    · rename_i hlive
      obtain rfl := Option.some.inj happly
      have hresult : life.result = none := hsafe
      have hlost : life.current.add life.lost = life.current := by
        unfold Life.lost
        rw [hresult]
        rfl
      rw [hlost]
      exact ⟨h.result hresult hlive rfl, fun _ => Nat.le_refl _⟩
    · cases happly
  | event details =>
    simp only [apply] at happly
    split at happly
    · rename_i hcan
      obtain ⟨hlive, -, hgrows, hlast⟩ := hcan
      obtain rfl := Option.some.inj happly
      refine ⟨h.event hlive hgrows fun result hresult => ?_, fun c => ?_⟩
      · rw [hresult] at hlast
        exact of_decide_eq_true hlast
      · have haccounted : life.job.accounted = false := by
          simp only [Job.live, Bool.and_eq_true, Bool.not_eq_true'] at hlive
          exact hlive.2
        show _ ≤ (life.job.observe details).total c
        rw [observe_total haccounted]
        exact merged_le ..
    · cases happly
  | save =>
    obtain rfl := Option.some.inj happly
    refine ⟨⟨h.total, h.base, h.idle, h.grown, h.written, h.copied, fun _ => rfl, rfl, fun hnot => ?_⟩,
      fun _ => Nat.le_refl _⟩
    obtain ⟨honly, hunwritten, hcurrent⟩ := h.first hnot
    exact ⟨honly, hunwritten, hcurrent⟩
  | finish =>
    obtain ⟨result, hresult, happly⟩ := Option.bind_eq_some_iff.mp happly
    split at happly
    · cases happly
    · obtain rfl := Option.some.inj happly
      refine ⟨h.finish hresult _ _, fun c => ?_⟩
      show _ ≤ (life.job.settled result).total c
      rw [settled_total]
      exact merged_le ..
  | restore status =>
    simp only [apply] at happly
    split at happly
    · obtain rfl := Option.some.inj happly
      exact ⟨h.restore ‹_› hsafe _ _, h.restore_le hsafe⟩
    · cases happly
  | resume =>
    simp only [apply] at happly
    split at happly
    · obtain rfl := Option.some.inj happly
      exact ⟨h.resume ‹_› rfl, fun c => by cases c <;> exact Nat.le_refl _⟩
    · cases happly

theorem told_of_path {start : Life} (hborn : start.Born) (hpath : Path Safe start life) : life.Told := by
  induction hpath with
  | refl => exact hborn.told
  | step _ hsafe happly ih => exact (ih.step hsafe happly).1

/-- **Token accounting**: as long as no report is lost and no job is restored from the usage of one
invocation among several, a settled job has used what its invocations reported, and nothing lowers it. -/
theorem tokens_telescope {start : Life} (hborn : start.Born) (hpath : Path Safe start life) :
    (life.job.accounted = true → ∀ c, life.job.total c = life.sum c) ∧
      ∀ occurrence next, life.Safe occurrence → life.apply occurrence = some next →
        ∀ c, life.job.total c ≤ next.job.total c := by
  have htold := told_of_path hborn hpath
  exact ⟨fun _ => htold.total, fun _ _ hsafe happly => (htold.step hsafe happly).2⟩

/-- A research job that has just been admitted. -/
def admitted : Life where
  job := {
    id := "research_00001"
    node_id := ""
    role := .research
    status := .running
    api_calls := 0
    api_budget := 1
    reserved_calls := 1
    previous_api_calls := 0 }
  saved := {
    id := "research_00001"
    node_id := ""
    role := .research
    status := .running
    api_calls := 0
    api_budget := 1
    reserved_calls := 1
    previous_api_calls := 0 }

theorem admitted_born : admitted.Born :=
  ⟨by decide, fun c => by cases c <;> decide, rfl, rfl, ⟨rfl, rfl⟩, rfl, rfl⟩

/-- One invocation, from its launch to its settling. -/
def invoked (status : JobStatus) (total : Counters) : List Occurrence :=
  [.launch false false, .admitting, .admitted, .thread, .reply status (some total), .finish, .save]

/-- The provider fails, the next process resumes the job, and its second invocation is settled. -/
theorem admitted_settled : ∃ life, Path Safe admitted life ∧ life.job.accounted = true ∧
    life.job.total .input = 150 ∧ ∀ c, life.job.total c = life.sum c := by
  obtain ⟨failed, hfailed, hledger, hsaved, restored, hrestored, life, hrun, haccounted, htotal⟩ : ∃ failed,
      admitted.run (invoked .provider_error ⟨100, 20⟩) = some failed ∧ failed.ledger.usage ≠ none ∧
      failed.saved.resumed = false ∧ ∃ restored, failed.apply (.restore .resume_pending) = some restored ∧
      ∃ life, restored.run (.resume :: invoked .completed ⟨150, 30⟩) = some life ∧
      life.job.accounted = true ∧ life.job.total .input = 150 :=
    ⟨_, rfl, by decide, by decide, _, rfl, _, rfl, by decide, by decide⟩
  have hfirst : Path Safe admitted failed := path_of_calm .refl (by decide) hfailed
  have hsafe : failed.Safe (.restore .resume_pending) := fun _ => Or.inr ⟨hledger, hsaved⟩
  have hresumed : Path Safe admitted restored := hfirst.step hsafe hrestored
  have hpath : Path Safe admitted life := path_of_calm hresumed (by decide) hrun
  exact ⟨life, hpath, haccounted, htotal, (tokens_telescope admitted_born hpath).1 haccounted⟩

/-- The provider fails twice, and twice the controller is resumed: the second time the job starts from
the usage of its second invocation. -/
def failedTwice : List Occurrence :=
  invoked .provider_error ⟨100, 20⟩ ++ [.restore .resume_pending, .resume] ++
    invoked .provider_error ⟨150, 30⟩ ++ [.restore .resume_pending]

/-- Its counters have fallen, and the third invocation does not bring them back. -/
theorem failedTwice_forgets :
    ¬ ∀ start life, Born start → Path (fun _ _ => True) start life →
      (life.job.accounted = true → ∀ c, life.job.total c = life.sum c) ∧
        ∀ occurrence next, life.apply occurrence = some next → ∀ c, life.job.total c ≤ next.job.total c := by
  intro h
  obtain ⟨life, hrun, haccounted, htotal⟩ : ∃ life,
      admitted.run (failedTwice ++ [.resume] ++ invoked .completed ⟨160, 33⟩) = some life ∧
        life.job.accounted = true ∧ life.job.total .input ≠ life.sum .input := ⟨_, rfl, by decide, by decide⟩
  exact htotal ((h admitted life admitted_born (path_of_run .refl hrun)).1 haccounted .input)

end Life

end LeanFlow.Jobs
