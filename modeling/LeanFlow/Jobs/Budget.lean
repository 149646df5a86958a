import LeanFlow.Jobs.Admission
import LeanFlow.Jobs.Resume

/-! The global call budget over any order of admissions, events, results and waits.

The controller's lock makes an admission and the settling of a job sections of
their own; the reports of running sessions fall between any two steps. -/
namespace LeanFlow.Jobs
open General Goals Source

variable {C : CharClass} {region : Text → String → Text} {origin : Origin} {rt rt' : Runtime}

/-! ### Settling -/

theorem settled_idle (result : Result) (job : Job) : (job.settled result).live = false := by
  simp [Job.settled, merge_usage, Job.live]

theorem settled_charge (result : Result) (job : Job) : (job.settled result).charge = result.calls job := by
  rw [charge_idle (settled_idle result job)]
  show ((result.calls job).toNat : Int) = result.calls job
  have : (job.api_calls : Int) ≤ result.calls job := Int.le_max_left ..
  omega

/-- Settling gives the reservation back and charges what the invocation used. -/
theorem Books.settle (h : Books origin 0 none rt) {ref : Nat} (hmem : ref ∈ rt.sessions) (result : Result) :
    Books origin 0 none (rt.settle ref result) := by
  obtain ⟨job, hjob, hor⟩ := h.sessions ref hmem
  simp only [Runtime.settle, hjob]
  split
  · exact h
  · rename_i hopen
    rw [not_or] at hopen
    have hlive : job.live = true := hor.resolve_left hopen.1
    obtain ⟨hbudget, -, -⟩ := h.sound job (List.mem_of_getElem? hjob) hlive
    have hholds : job.holds = job.reserved_calls := if_pos hlive
    have hcharge : job.charge = job.previous_api_calls := if_pos hlive
    have hsettled := settled_charge result job
    refine h.update hjob (by simp [settled_idle]) ?_ ?_ ?_ rfl
      (fun key hkey hwaiting => absurd hmem (h.waits key ref hkey hwaiting).choose_spec.2.2.1)
      fun _ => Or.inl rfl
    · rw [holds_idle (settled_idle result job), hholds]
      show rt.reserved - job.reserved_calls - 0 - 0 = _
      omega
    · rw [hsettled, hcharge]
      show rt.consumed + (result.calls job - job.previous_api_calls) - _ = _
      omega
    · have hwithin := hopen.2
      show rt.consumed + (result.calls job - job.previous_api_calls) + (rt.reserved - job.reserved_calls) ≤ _
      omega

/-- A settled job is settled once. -/
theorem settle_accounted {ref : Nat} (h : ∀ job, rt.jobs[ref]? = some job → job.accounted = true)
    (result : Result) : rt.settle ref result = rt := by
  rw [Runtime.settle]
  cases hjob : rt.jobs[ref]? with
  | none => rfl
  | some job => exact if_pos (Or.inl (h job hjob))

/-! ### Finishing and waiting

Other parties may change the state along any `R` that keeps the books, and whatever else `F` is
known of the jobs. -/

/-- Facts that settling a started job keeps. -/
structure Settling (F : Runtime → Prop) : Prop where
  settle : ∀ rt ref result, ref ∈ rt.sessions → F rt → F (rt.settle ref result)
  retry : ∀ rt job, F rt → F (rt.retryNode job)

theorem settling_true : Settling fun _ => True := ⟨fun _ _ _ _ h => h, fun _ _ h => h⟩

section Waiting
variable {R : Runtime → Runtime → Prop} {F : Runtime → Prop}

theorem finish_job_keeps (hR : ∀ s, R s s) (hF : Settling F)
    (hstable : Prog.Stable R fun rt => Books origin 0 none rt ∧ F rt) {ref : Nat} (hmem : ref ∈ origin.started)
    (result : Result) (cancelled : Bool) :
    Prog.Keeps R (fun rt => Books origin 0 none rt ∧ F rt) (finish_job ref result cancelled) := by
  refine .act hstable (fun rt h => ⟨h.1.settle (h.1.started ref hmem) result,
    hF.settle rt ref result (h.1.started ref hmem) h.2⟩) fun rt _ => ?_
  cases rt.jobs[ref]? with
  | none => exact .ret hstable _
  | some job =>
    refine .ite (.ret hstable _) (.ite (.raise hstable _) ?_)
    refine .bind hR (.fault hstable _) fun _ => .bind hR (.fault hstable _) fun _ => ?_
    refine .bind hR (.fault hstable _) fun _ => .ite ?_ (.ret hstable _)
    refine .bind hR (.modify hstable fun rt h => ⟨?_, hF.retry rt job h.2⟩) fun _ => .raise hstable _
    exact h.1.congr rfl rfl rfl rfl (fun key => by cases key <;> rfl) rfl rfl

/-- The sessions of a state, from then on. -/
def Origin.with (origin : Origin) (refs : List Nat) : Origin :=
  { origin with started := origin.started ++ refs }

theorem Books.with (h : Books origin 0 none rt) : Books (origin.with rt.sessions) 0 none rt :=
  ⟨h.sound, h.reserved, h.consumed, h.within, h.waits, h.sessions, h.pending, fun ref href =>
    (List.mem_append.mp href).elim (h.started ref) id⟩

theorem Books.without {refs : List Nat} (h : Books (origin.with refs) 0 none rt) : Books origin 0 none rt :=
  ⟨h.sound, h.reserved, h.consumed, h.within, h.waits, h.sessions, h.pending, fun ref href =>
    h.started ref (List.mem_append_left _ href)⟩

theorem wait_rounds_keeps (hR : ∀ s, R s s) (hR' : ∀ s s' s'', R s s' → R s' s'' → R s s'')
    (hF : Settling F) (hstable : ∀ origin, Prog.Stable R fun rt => Books origin 0 none rt ∧ F rt)
    (minimum : Int) (role : Role) (rounds : List (List (Nat × Result × Bool))) :
    Prog.Keeps R (fun rt => Books origin 0 none rt ∧ F rt) (wait_rounds minimum role rounds) := by
  induction rounds generalizing origin with
  | nil => exact .ret (hstable _) _
  | cons done rounds ih =>
    refine .bind hR (.bind hR (.fault (hstable _) _) fun _ => .fault (hstable _) _) fun _ => ?_
    intro rt₀ h₀
    refine Prog.Spec.bind hR (Prog.Spec.get hR' (fun _ hother => hstable _ _ _ h₀ hother)
      fun rt rt' hother hother' => ?_)
    have hrt : Books origin 0 none rt ∧ F rt := hstable _ _ _ h₀ hother
    refine (((?_ : Prog.Keeps R (fun rt' => Books (origin.with rt.sessions) 0 none rt' ∧ F rt') _) rt'
      (hstable _ _ _ ⟨hrt.1.with, hrt.2⟩ hother')).mono (fun _ _ h => ⟨h.1.without, h.2⟩)
      fun _ _ h => ⟨h.1.without, h.2⟩).weaken fun _ h => ⟨h.1.without, h.2⟩
    cases hwaiting : outstanding rt minimum role with
    | none => exact .ret (hstable _) _
    | some waiting =>
      refine .ite (.ret (hstable _) _) (.bind hR (.forM hR (hstable _) fun future hfuture => ?_) fun _ => ih)
      have hwait : future.1 ∈ waiting := by simpa using (List.mem_filter.mp hfuture).2
      have hmem : future.1 ∈ rt.pending := by
        rw [outstanding] at hwaiting
        split at hwaiting
        · cases hwaiting
        · obtain rfl := Option.some.inj hwaiting
          exact (List.mem_filter.mp hwait).1
      exact finish_job_keeps hR hF (hstable _) (List.mem_append_right _ (hrt.1.pending _ hmem)) _ _

theorem wait_for_capacity_keeps (hR : ∀ s, R s s) (hR' : ∀ s s' s'', R s s' → R s' s'' → R s s'')
    (hF : Settling F) (hstable : ∀ origin, Prog.Stable R fun rt => Books origin 0 none rt ∧ F rt)
    (role : Role) (node : Option Node) (prompt : String) (rounds : List (List (Nat × Result × Bool))) :
    Prog.Keeps R (fun rt => Books origin 0 none rt ∧ F rt) (wait_for_capacity role node prompt rounds) :=
  .bind hR (.get (hstable _)) fun _ => wait_rounds_keeps hR hR' hF hstable _ _ _

end Waiting

/-! ### Runs -/
section Runs
variable (C region)

/-- What happens under the controller's lock, with the events that fall in between, or outside it. -/
inductive Section where
  | admission (call : Call) (moves : List (Prog.Move (Nat × Details)))
  | finish (ref : Nat) (result : Result) (cancelled : Bool) (moves : List (Prog.Move (Nat × Details)))
  | event (report : Nat × Details)
  | submit (ref : Nat)
  | collect (ref : Nat)

/-- Only started sessions are submitted, reported and finished. -/
def Section.apply : Section → Runtime → Option Runtime
  | .admission call moves, rt =>
    (Prog.outcome Runtime.event moves (new_job C region call.role call.node call.prompt) rt).map (·.2)
  | .finish ref result cancelled moves, rt =>
    if ref ∈ rt.sessions then
      (Prog.outcome Runtime.event moves (finish_job ref result cancelled) rt).map (·.2)
    else none
  | .event report, rt => rt.event report
  | .submit ref, rt => if ref ∈ rt.sessions then some { rt with pending := rt.pending ++ [ref] } else none
  | .collect ref, rt => some { rt with pending := rt.pending.filter (· ≠ ref) }

/-- The controller's own thread may wait, up to any point, while other sections run. -/
inductive Action where
  | work (part : Section)
  | wait (role : Role) (node : Option Node) (prompt : String) (rounds : List (List (Nat × Result × Bool)))
    (moves : List (Prog.Move Section))

def Action.apply : Action → Runtime → Option Runtime
  | .work part, rt => part.apply C region rt
  | .wait role node prompt rounds moves, rt =>
    (Prog.drive (Section.apply C region) moves (wait_for_capacity role node prompt rounds, rt)).map (·.2)

def run : List Action → Runtime → Option Runtime
  | [], rt => some rt
  | action :: actions, rt => (action.apply C region rt).bind (run actions)

theorem Events.trans (rt rt' rt'' : Runtime) (h : Events rt rt') (h' : Events rt' rt'') : Events rt rt'' :=
  Relation.ReflTransGen.trans h h'

theorem Events.of_event (event : Nat × Details) (rt rt' : Runtime) (h : rt.event event = some rt') :
    Events rt rt' := .single ⟨event, h⟩

theorem Section.apply_books {part : Section} (h : Books origin 0 none rt)
    (happly : part.apply C region rt = some rt') : Books origin 0 none rt' := by
  cases part with
  | admission call moves =>
    obtain ⟨⟨_, _⟩, hrun, rfl⟩ := Option.map_eq_some_iff.mp happly
    exact (new_job_triple call).ends Events.refl Events.trans Events.of_event h hrun
  | finish ref result cancelled moves =>
    rw [Section.apply] at happly
    split at happly
    · obtain ⟨⟨_, _⟩, hrun, rfl⟩ := Option.map_eq_some_iff.mp happly
      exact ((finish_job_keeps Events.refl settling_true (stable_books.and (Prog.stable_const True))
        (List.mem_append_right _ ‹_›) result cancelled).triple.ends Events.refl Events.trans Events.of_event
        ⟨h.with, trivial⟩ hrun).1.without
    · cases happly
  | event report => exact h.event happly
  | submit ref =>
    rw [Section.apply] at happly
    split at happly
    · rename_i hmem
      obtain rfl := Option.some.inj happly
      refine ⟨h.sound, h.reserved, h.consumed, h.within, fun key ref hkey href => h.waits key ref hkey ?_,
        h.sessions, fun ref href => ?_, h.started⟩
      · cases key <;> exact href
      · rcases List.mem_append.mp href with href | href
        · exact h.pending ref href
        · rw [List.mem_singleton.mp href]
          exact hmem
    · cases happly
  | collect ref =>
    obtain rfl := Option.some.inj happly
    refine ⟨h.sound, h.reserved, h.consumed, h.within, fun key ref hkey href => h.waits key ref hkey ?_,
      h.sessions, fun ref href => h.pending ref (List.mem_filter.mp href).1, h.started⟩
    cases key <;> exact href

/-- What the controller's other threads may do while it waits. -/
def Sections : Runtime → Runtime → Prop :=
  Relation.ReflTransGen fun rt rt' => ∃ part : Section, part.apply C region rt = some rt'

/-- Facts about the jobs that every section keeps. -/
structure Upheld (F : Runtime → Prop) : Prop extends Settling F where
  sections : ∀ ⦃origin part rt rt'⦄, Books origin 0 none rt → F rt → Section.apply C region part rt = some rt' →
    F rt'

variable {F : Runtime → Prop}

theorem stable_sections (hF : Upheld C region F) (origin : Origin) :
    Prog.Stable (Sections C region) fun rt => Books origin 0 none rt ∧ F rt := by
  intro rt rt' h hsections
  induction hsections with
  | refl => exact h
  | tail _ hstep ih =>
    obtain ⟨part, happly⟩ := hstep
    exact ⟨Section.apply_books C region ih.1 happly, hF.sections ih.1 ih.2 happly⟩

theorem Action.apply_keeps (hF : Upheld C region F) {action : Action} (h : Books origin 0 none rt) (hrt : F rt)
    (happly : action.apply C region rt = some rt') : Books origin 0 none rt' ∧ F rt' := by
  cases action with
  | work part => exact ⟨Section.apply_books C region h happly, hF.sections h hrt happly⟩
  | wait role node prompt rounds moves =>
    obtain ⟨⟨_, _⟩, hrun, rfl⟩ := Option.map_eq_some_iff.mp happly
    exact (wait_for_capacity_keeps (fun _ => .refl) (fun _ _ _ => .trans) hF.toSettling
      (stable_sections C region hF) role node prompt rounds).drive (fun _ => .refl) (fun _ _ _ => .trans)
      (fun part _ _ h => .single ⟨part, h⟩) ⟨h, hrt⟩ hrun

theorem run_keeps (hF : Upheld C region F) {actions : List Action} (h : Books origin 0 none rt) (hrt : F rt)
    (hrun : run C region actions rt = some rt') : Books origin 0 none rt' ∧ F rt' := by
  induction actions generalizing rt with
  | nil => exact Option.some.inj hrun ▸ ⟨h, hrt⟩
  | cons action actions ih =>
    obtain ⟨after, happly, hrun⟩ := Option.bind_eq_some_iff.mp hrun
    obtain ⟨hbooks, hafter⟩ := Action.apply_keeps C region hF h hrt happly
    exact ih hbooks hafter hrun

theorem run_books {actions : List Action} (h : Books origin 0 none rt)
    (hrun : run C region actions rt = some rt') : Books origin 0 none rt' :=
  (run_keeps C region ⟨settling_true, fun _ _ _ _ _ _ _ => trivial⟩ h trivial hrun).1

/-! ### The accounts -/

/-- A process starts with no job, or with what it restored. -/
inductive Start : Runtime → Prop where
  | fresh (config : Config) (dag : Dag) (documents : Dict String SourceDocument)
      (files : Dict (String × JobFile) Entry) :
    Start { config := config, dag := dag, documents := documents, files := files }
  | resumed (durable : Runtime) : Start durable.restore

theorem Start.books {start : Runtime} (h : Start start) : Books ⟨start.Within, []⟩ 0 none start := by
  cases h with
  | fresh config dag documents files =>
    refine ⟨fun _ hjob => ?_, rfl, rfl, fun h => h, fun key ref _ href => ?_, fun _ href => ?_, fun _ href => ?_,
      fun _ href => ?_⟩
    · cases hjob
    · cases key <;> cases href
    · cases href
    · cases href
    · cases href
  | resumed durable => exact restore_books durable

/-- The calls of the jobs of a kind. -/
def Runtime.calls (rt : Runtime) (kind : Job → Bool) (calls : Job → Int) : Int :=
  ((rt.jobs.filter kind).map calls).sum

/-- An unsettled job that no session of this process runs. -/
def Job.parked (job : Job) : Bool := !job.accounted && !job.live

structure Accounts (rt : Runtime) : Prop where
  reserved : rt.reserved = rt.calls Job.live (·.reserved_calls)
  nonneg : 0 ≤ rt.reserved
  consumed : rt.consumed = rt.calls (·.accounted) (fun job => job.api_calls) +
    rt.calls Job.live (fun job => job.previous_api_calls) + rt.calls Job.parked fun job => job.api_calls

theorem calls_eq (rt : Runtime) (kind : Job → Bool) (calls : Job → Int) :
    rt.calls kind calls = (rt.jobs.map fun job => if kind job then calls job else 0).sum := sum_filter ..

theorem Books.accounts (h : Books origin 0 none rt) : Accounts rt := by
  have hreserved : rt.reserved = rt.calls Job.live (·.reserved_calls) := by
    rw [h.reserved, add_zero, calls_eq]
    rfl
  refine ⟨hreserved, ?_, ?_⟩
  · rw [hreserved]
    refine List.sum_nonneg fun calls hcalls => ?_
    obtain ⟨job, hjob, rfl⟩ := List.mem_map.mp hcalls
    obtain ⟨hmem, hlive⟩ := List.mem_filter.mp hjob
    obtain ⟨hbudget, hresumed, hwithin⟩ := h.sound job hmem hlive
    omega
  · rw [h.consumed, calls_eq, calls_eq, calls_eq, ← List.sum_map_add, ← List.sum_map_add]
    refine congrArg List.sum (List.map_congr_left fun job _ => ?_)
    cases haccounted : job.accounted <;> cases hrunning : job.status == .running <;>
      simp [Job.charge, Job.parked, Job.live, haccounted, hrunning]

/-- What settling a job does to the accounts, once. -/
structure SettledOnce (ref : Nat) (result : Result) (rt : Runtime) : Prop where
  charged : ∀ job, rt.jobs[ref]? = some job → job.accounted = false → result.calls job ≤ job.api_budget →
    (rt.settle ref result).consumed = rt.consumed + (result.calls job - job.previous_api_calls) ∧
      ∃ settled, (rt.settle ref result).jobs[ref]? = some settled ∧ settled.accounted = true ∧
        (settled.api_calls : Int) = result.calls job
  again : ∀ later, (∀ job, (rt.settle ref result).jobs[ref]? = some job → job.accounted = true) →
    (rt.settle ref result).settle ref later = rt.settle ref result

theorem settledOnce (ref : Nat) (result : Result) (rt : Runtime) : SettledOnce ref result rt := by
  refine ⟨fun job hjob haccounted hwithin => ?_, fun later h => settle_accounted h later⟩
  have hsettle : rt.settle ref result = { rt.updateJob ref (Job.settled result) with
      reserved := rt.reserved - job.reserved_calls
      consumed := rt.consumed + (result.calls job - job.previous_api_calls) } := by
    simp only [Runtime.settle, hjob]
    exact if_neg (by simp [haccounted, hwithin])
  rw [hsettle]
  refine ⟨rfl, job.settled result, ?_, rfl, ?_⟩
  · show (rt.jobs.modify ref _)[ref]? = _
    rw [List.getElem?_modify_eq, hjob]
    rfl
  · rw [← settled_charge, charge_idle (settled_idle result job)]

/-- **The call budget**: in every state of every run the reservation is what the running unsettled
jobs hold, the campaign stays within a limit it started within, and every call is charged once. -/
theorem budget_kept {start : Runtime} (hstart : Start start) {actions : List Action} {rt : Runtime}
    (hrun : run C region actions start = some rt) :
    Accounts rt ∧ (start.Within → rt.Within) ∧ ∀ ref result, SettledOnce ref result rt := by
  have hbooks : Books ⟨start.Within, []⟩ 0 none rt := run_books C region hstart.books hrun
  exact ⟨hbooks.accounts, fun h limit hlimit => hbooks.within h limit hlimit, fun ref result =>
    settledOnce ref result rt⟩

end Runs

/-- A research job is admitted, reports a call, and is finished twice. -/
def surveyRun : List Action :=
  let answers : List Bool := [true, true, true, false, false, false, true, true, true, false, false, false,
    true, true, true, false, false, true]
  let finish : Action := .work (.finish 0 { status := .completed, api_calls := some 1 } false
    [.act, .pick false, .pick false, .pick false])
  [.work (.admission ⟨.research, none, "survey", fun h => absurd rfl h⟩
      (answers.map fun acts => if acts then .act else .pick false)),
    .work (.event (0, { api_calls := some 1 })), finish,
    .work (.finish 0 { status := .timeout } false [.act])]

theorem surveyRun_kept : ∃ rt,
    run .ascii (fun text _ => text) surveyRun { config := { agent_calls := some 2 } } = some rt ∧
      (rt.consumed, rt.reserved) = (1, 0) ∧ Accounts rt ∧ rt.Within := by
  have hend : (run .ascii (fun text _ => text) surveyRun { config := { agent_calls := some 2 } }).map
      (fun rt => (rt.consumed, rt.reserved)) = some (1, 0) := by decide +kernel
  obtain ⟨rt, hrun, hcounters⟩ := Option.map_eq_some_iff.mp hend
  obtain ⟨haccounts, hwithin, -⟩ := budget_kept .ascii (fun text _ => text) (.fresh _ {} .empty .empty) hrun
  exact ⟨rt, hrun, hcounters, haccounts, hwithin fun limit hlimit => by cases hlimit; decide⟩

/-- The process was cut off while its only job had used one call. -/
def cutOff : Runtime where
  config := { agent_calls := some 2 }
  jobs := [{
    id := "research_00001"
    node_id := ""
    role := .research
    status := .running
    api_calls := 0
    api_budget := 1
    reserved_calls := 1
    previous_api_calls := 0 }]
  reserved := 1
  files := Dict.empty.set ("research_00001", .request_count) (.ledger none 1 {})

/-- A restored job is charged what it used, although it is not settled. -/
theorem cutOff_charged :
    ¬ ∀ start, Start start → ∀ actions rt, run .ascii (fun text _ => text) actions start = some rt →
      rt.consumed = rt.calls (·.accounted) (fun job => job.api_calls) +
        rt.calls (fun job => !job.accounted) fun job => job.previous_api_calls := by
  intro h
  have hcharged := h cutOff.restore (.resumed cutOff) [] _ rfl
  revert hcharged
  decide +kernel

end LeanFlow.Jobs
