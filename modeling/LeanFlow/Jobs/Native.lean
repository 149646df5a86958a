import LeanFlow.Jobs.Session

/-! The life of one job: its native invocations, its ledger and the processes of the controller.

An invocation reads the ledger of its job, journals its admission there before it
launches the native process, and writes its own usage when the process is done. The
controller keeps the job in memory and in the durable state; when it stops, the next
process starts from the durable job and the ledger. What each invocation reported is
kept beside this, only to be spoken of: `current` is the latest one. -/
namespace LeanFlow.Jobs
open General Goals Source

/-! ### Native usage -/

/-- A complete native usage. -/
structure Counters where
  input_tokens : Nat
  output_tokens : Nat
deriving DecidableEq

/-- Subtract a known resume baseline; unknown or decreasing totals stay unknown. -/
def usage_delta (total previous : Option Counters) (resumed cumulative : Bool) : Option Counters :=
  total.bind fun total =>
    if !cumulative || !resumed then some total
    else previous.bind fun baseline =>
      if total.input_tokens < baseline.input_tokens ∨ total.output_tokens < baseline.output_tokens then none
      else some ⟨total.input_tokens - baseline.input_tokens, total.output_tokens - baseline.output_tokens⟩

def Usage.of (usage : Option Counters) : Usage :=
  { input_tokens := usage.map (·.input_tokens), output_tokens := usage.map (·.output_tokens) }

/-- The counters a job keeps, each with what its earlier invocations used. -/
inductive Counter where
  | input
  | output
deriving DecidableEq

def Job.total (job : Job) : Counter → Nat
  | .input => job.input_tokens
  | .output => job.output_tokens

def Job.base (job : Job) : Counter → Nat
  | .input => job.previous_input_tokens
  | .output => job.previous_output_tokens

def Usage.get (usage : Usage) : Counter → Option Int
  | .input => usage.input_tokens
  | .output => usage.output_tokens

def Counters.get (counters : Counters) : Counter → Nat
  | .input => counters.input_tokens
  | .output => counters.output_tokens

@[simp] theorem of_get (usage : Option Counters) (c : Counter) :
    (Usage.of usage).get c = usage.map fun usage => (usage.get c : Int) := by
  cases c <;> cases usage <;> rfl

@[simp] theorem merge_usage_total (job : Job) (usage : Usage) (c : Counter) :
    (merge_usage job usage).total c = merged (job.total c) (job.base c) (usage.get c) := by
  cases c <;> rfl

@[simp] theorem merge_usage_base (job : Job) (usage : Usage) (c : Counter) :
    (merge_usage job usage).base c = job.base c := by
  cases c <;> rfl

/-! ### Invocations -/

/-- `request-count.json`; `session` says whether it names a native session to resume. -/
structure Ledger where
  used : Nat := 0
  usage : Option Counters := none
  usage_total : Option Counters := none
  session : Bool := false
deriving DecidableEq

/-- What a resume reads of it. -/
def Ledger.entry (ledger : Ledger) : Entry := .ledger none ledger.used (.of ledger.usage)

/-- `run_session` while its native process is prepared and runs. -/
structure Invocation where
  previous : Ledger
  previous_calls : Nat
  resumed : Bool
  started : Bool := false
deriving DecidableEq

/-- The calls it reports: its own once the process has started. -/
def Invocation.calls (invocation : Invocation) : Nat := invocation.previous_calls + invocation.started.toNat

/-- What an invocation reported, whether it is over, whether its call was charged, and whether
its usage is known. -/
structure Report where
  tokens : Counters := ⟨0, 0⟩
  closed : Bool := false
  charged : Bool := false
  known : Bool := false
deriving DecidableEq

structure Life where
  job : Job
  saved : Job
  ledger : Ledger := {}
  invocation : Option Invocation := none
  /-- What the session returned, until it is finished. -/
  result : Option Result := none
  current : Report := {}
  past : List Report := []
deriving DecidableEq

inductive Occurrence where
  /-- `run_session` reads the ledger; another backend or policy starts a new native session. -/
  | launch (changed restricted : Bool)
  | admitting
  | admitted
  /-- The native session names itself. -/
  | thread
  /-- The native process is done, with its cumulative total. -/
  | reply (status : JobStatus) (total : Option Counters)
  /-- The session ends before it launches a process. -/
  | refuse (status : JobStatus)
  /-- The session raises. -/
  | abort (status : JobStatus)
  | event (details : Details)
  /-- The durable state is written. -/
  | save
  | finish
  /-- The process ends and the next one restores the job. -/
  | restore (status : JobStatus)
  | resume
deriving DecidableEq

/-- The counters of a usage, where it has them. -/
def Counters.replace (counters : Counters) (usage : Usage) : Counters where
  input_tokens := usage.input_tokens.elim counters.input_tokens Int.toNat
  output_tokens := usage.output_tokens.elim counters.output_tokens Int.toNat

/-- Reports grow. -/
def Counters.grows (counters : Counters) (usage : Usage) : Bool :=
  usage.input_tokens.all (fun u => (counters.input_tokens : Int) ≤ u) &&
    usage.output_tokens.all fun u => (counters.output_tokens : Int) ≤ u

def Report.add (usage : Usage) (report : Report) : Report := { report with tokens := report.tokens.replace usage }

/-- An invocation is over once. -/
def Report.close (charged known : Bool) (report : Report) : Report :=
  if report.closed then report else { report with closed := true, charged := charged, known := known }

namespace Life

/-- What `run_session` returns when its native process is done. -/
def replied (invocation : Invocation) (status : JobStatus) (usage : Option Counters) : Result where
  status := status
  api_calls := some (invocation.calls : Int)
  usage := .of usage
  usage_known := usage.isSome

/-- The ledger it leaves. -/
def journal (invocation : Invocation) (total usage : Option Counters) : Ledger where
  used := invocation.calls
  usage := usage
  usage_total := total <|> invocation.previous.usage_total
  session := invocation.previous.session

/-- What the usage of the latest invocation is when its result is dropped. -/
def lost (life : Life) : Usage := (life.result.map Result.usage).getD {}

/-- The job of the next process. -/
def restored (status : JobStatus) (life : Life) : Job :=
  if life.saved.status.unfinished then
    { life.saved.recount (some life.ledger.entry) with status := status }
  else life.saved

def apply (life : Life) : Occurrence → Option Life
  | .launch changed restricted =>
    if life.job.live ∧ life.invocation = none ∧ life.result = none then
      let previous := if changed then { life.ledger with usage_total := none, session := false } else life.ledger
      some { life with
        ledger := previous
        invocation := some ⟨previous, previous.used, previous.session && !restricted, false⟩ }
    else none
  | .admitting => life.invocation.bind fun invocation =>
    if life.result = none then
      let previous := { invocation.previous with used := invocation.previous_calls + 1 }
      some { life with ledger := previous, invocation := some { invocation with previous := previous } }
    else none
  | .admitted => life.invocation.bind fun invocation =>
    if life.result = none ∧ life.ledger.used = invocation.previous_calls + 1 then
      some { life with invocation := some { invocation with started := true } }
    else none
  | .thread => life.invocation.bind fun invocation =>
    if life.result = none ∧ invocation.started then
      let previous := { invocation.previous with session := true }
      some { life with ledger := previous, invocation := some { invocation with previous := previous } }
    else none
  | .reply status total => life.invocation.bind fun invocation =>
    let usage := usage_delta total invocation.previous.usage_total invocation.resumed true
    if life.result = none ∧ life.current.tokens.grows (.of usage) then
      some { life with
        ledger := journal invocation total usage
        result := some (replied invocation status usage) }
    else none
  | .refuse status => life.invocation.bind fun invocation =>
    if life.result = none ∧ !invocation.started then
      some { life with result := some { status := status, api_calls := some invocation.previous_calls } }
    else none
  | .abort status =>
    if life.job.live then
      some { life with
        result := some { status := status, api_calls := some life.job.api_calls }
        current := life.current.add life.lost }
    else none
  | .event details =>
    if life.job.live ∧ (life.invocation.any fun invocation => details.api_calls.all (· ≤ (invocation.calls : Int))) ∧
        life.current.tokens.grows details.usage ∧
        life.result.all fun result => details.usage = {} ∨ details.usage = result.usage then
      some { life with job := life.job.observe details, current := life.current.add details.usage }
    else none
  | .save => some { life with saved := life.job }
  | .finish => life.result.bind fun result =>
    if life.job.accounted ∨ result.calls life.job > life.job.api_budget then none
    else some { life with
      job := life.job.settled result
      invocation := none
      result := none
      current := (life.current.add result.usage).close (life.job.previous_api_calls < result.calls life.job)
        result.usage_known }
  | .restore status =>
    if status = .resume_pending ∨ status = .interrupted ∨ status = .stale then
      some { life with
        job := life.restored status
        invocation := none
        result := none
        current := (life.current.add life.lost).close (life.job.previous_api_calls < life.ledger.used)
          (life.result.any Result.usage_known) }
    else none
  | .resume =>
    if life.job.status = .resume_pending then
      let job := { life.job.extended with reserved_calls := 1 }.restarted
      some { life with job := job, saved := job, current := {}, past := life.current :: life.past }
    else none

def run : List Occurrence → Life → Option Life
  | [], life => some life
  | occurrence :: occurrences, life => (life.apply occurrence).bind (run occurrences)

/-- The lives a job may lead while every step is as `ok` says. -/
inductive Path (ok : Life → Occurrence → Prop) (start : Life) : Life → Prop where
  | refl : Path ok start start
  | step {life next : Life} {occurrence : Occurrence} (hpath : Path ok start life) (hok : ok life occurrence)
      (happly : life.apply occurrence = some next) : Path ok start next

theorem path_of_run {occurrences : List Occurrence} {start life next : Life}
    (h : Path (fun _ _ => True) start life) (hrun : life.run occurrences = some next) :
    Path (fun _ _ => True) start next := by
  induction occurrences generalizing life with
  | nil => exact Option.some.inj hrun ▸ h
  | cons occurrence occurrences ih =>
    obtain ⟨after, happly, hrun⟩ := Option.bind_eq_some_iff.mp hrun
    exact ih (h.step trivial happly) hrun

/-- A job as it is admitted: published with an empty ledger. -/
structure Born (life : Life) : Prop where
  fresh : life.job.live = true ∧ life.job.api_calls = 0 ∧ life.job.previous_api_calls = 0 ∧
    life.job.api_budget = 1 ∧ life.job.resumed = false
  unused : ∀ c, life.job.total c = 0 ∧ life.job.base c = 0
  saved : life.saved = life.job
  ledger : life.ledger = {}
  idle : life.invocation = none ∧ life.result = none
  silent : life.current = {} ∧ life.past = []

/-- What the earlier invocations reported. -/
def earlier (life : Life) (c : Counter) : Nat := (life.past.map (·.tokens.get c)).sum

/-- The sum of what the invocations reported. -/
def sum (life : Life) (c : Counter) : Nat := life.earlier c + life.current.tokens.get c

end Life

end LeanFlow.Jobs
