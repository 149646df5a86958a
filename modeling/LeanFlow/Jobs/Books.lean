import LeanFlow.Jobs.Session

/-! The books of the campaign budget.

A live job (running and not settled) holds its reservation and is charged what it
had used before this invocation; any other job holds nothing and is charged all
its calls. `Books` says that `reserved` and `consumed` are the sums of these, up
to a reservation `held` that is not attached to a job yet, and ties the journals of
interrupted jobs and the started sessions to the jobs. -/
namespace LeanFlow.Jobs
open General Goals Source

/-- What a job holds of the reservation. -/
def Job.holds (job : Job) : Int := if job.live then job.reserved_calls else 0

/-- What a job is charged. -/
def Job.charge (job : Job) : Int := if job.live then job.previous_api_calls else job.api_calls

/-- A live job uses what its invocation was reserved. -/
structure Job.Sound (job : Job) : Prop where
  budget : job.api_budget = job.previous_api_calls + job.reserved_calls
  resumed : job.previous_api_calls ≤ job.api_calls
  within : (job.api_calls : Int) ≤ job.api_budget

theorem charge_idle {job : Job} (h : job.live = false) : job.charge = job.api_calls := by
  simp [Job.charge, h]

theorem holds_idle {job : Job} (h : job.live = false) : job.holds = 0 := by
  simp [Job.holds, h]

theorem restarted_sound {job : Job} (hbudget : job.api_budget = job.api_calls + job.reserved_calls)
    (hreserved : 0 ≤ job.reserved_calls) : job.restarted.Sound :=
  ⟨hbudget, Nat.le_refl _, by show (job.api_calls : Int) ≤ job.api_budget; omega⟩

/-- What a call must name to resume the job. -/
inductive Key where
  | prover (node : String)
  | negation (node : String)
  | role (role : Role) (purpose : String)
deriving DecidableEq

def Job.key (job : Job) : Key :=
  match job.role with
  | .prover => .prover job.node_id
  | .negation => .negation job.node_id
  | role => .role role job.purpose

/-- What a call names. -/
def key_of (role : Role) (node : Option Node) (prompt : String) : Key :=
  match role with
  | .prover => .prover (node.elim "" (·.id))
  | .negation => .negation (node.elim "" (·.id))
  | role => .role role prompt

def Runtime.waiting (rt : Runtime) : Key → Option Nat
  | .prover node => rt.resume_jobs.get? node
  | .negation node => rt.resume_negation_jobs.get? node
  | .role role purpose => rt.resume_role_jobs.get? (role, purpose)

theorem resumed_eq (rt : Runtime) (role : Role) (node : Option Node) (prompt : String) :
    rt.resumed role node prompt = rt.waiting (key_of role node prompt) := by
  cases role <;> rfl

theorem waiting_erase (rt : Runtime) (role : Role) (node : Option Node) (prompt : String) (key : Key) :
    (rt.putResumed role node prompt fun key jobs => jobs.erase key).waiting key =
      if key = key_of role node prompt then none else rt.waiting key := by
  cases role <;> cases key <;>
    simp [Runtime.putResumed, role_group, Runtime.waiting, key_of, Dict.get?_erase]

theorem waiting_set (rt : Runtime) (role : Role) (node : Option Node) (prompt : String) (ref : Nat)
    (key : Key) :
    (rt.putResumed role node prompt fun key jobs => jobs.set key ref).waiting key =
      if key = key_of role node prompt then some ref else rt.waiting key := by
  cases role <;> cases key <;>
    simp [Runtime.putResumed, role_group, Runtime.waiting, key_of, Dict.get?_set]

/-! What a journal does not touch. -/
section PutResumed
variable {role : Role} {node : Option Node} {prompt : String}
  {change : {κ : Type} → [DecidableEq κ] → κ → Dict κ Nat → Dict κ Nat} {rt : Runtime}

@[simp] theorem putResumed_config : (rt.putResumed role node prompt change).config = rt.config := by
  cases role <;> rfl

@[simp] theorem putResumed_jobs : (rt.putResumed role node prompt change).jobs = rt.jobs := by
  cases role <;> rfl

@[simp] theorem putResumed_reserved : (rt.putResumed role node prompt change).reserved = rt.reserved := by
  cases role <;> rfl

@[simp] theorem putResumed_consumed : (rt.putResumed role node prompt change).consumed = rt.consumed := by
  cases role <;> rfl

@[simp] theorem putResumed_sessions : (rt.putResumed role node prompt change).sessions = rt.sessions := by
  cases role <;> rfl

@[simp] theorem putResumed_pending : (rt.putResumed role node prompt change).pending = rt.pending := by
  cases role <;> rfl

end PutResumed

/-- What held at some earlier point: whether the campaign was within its limit, and which
sessions had been started. -/
structure Origin where
  bounded : Prop
  started : List Nat

/-- The books of a state, see above; `exempt` is the key of a job that is being resumed. -/
structure Books (origin : Origin) (held : Int) (exempt : Option Key) (rt : Runtime) : Prop where
  sound : ∀ job ∈ rt.jobs, job.live = true → job.Sound
  reserved : rt.reserved = (rt.jobs.map Job.holds).sum + held
  consumed : rt.consumed = (rt.jobs.map Job.charge).sum
  within : origin.bounded → ∀ limit, rt.config.agent_calls = some limit → rt.consumed + rt.reserved ≤ limit
  waits : ∀ key ref, some key ≠ exempt → rt.waiting key = some ref →
    ∃ job, rt.jobs[ref]? = some job ∧ job.live = false ∧ ref ∉ rt.sessions ∧ job.key = key
  sessions : ∀ ref ∈ rt.sessions, ∃ job, rt.jobs[ref]? = some job ∧ (job.accounted = true ∨ job.live = true)
  pending : ∀ ref ∈ rt.pending, ref ∈ rt.sessions
  started : ∀ ref ∈ origin.started, ref ∈ rt.sessions

variable {origin : Origin} {held : Int} {exempt : Option Key} {rt rt' : Runtime}

/-- The books see the jobs, the counters, the journals and the sessions only. -/
theorem Books.congr (h : Books origin held exempt rt) (hconfig : rt'.config = rt.config)
    (hjobs : rt'.jobs = rt.jobs) (hreserved : rt'.reserved = rt.reserved)
    (hconsumed : rt'.consumed = rt.consumed) (hwaiting : ∀ key, rt'.waiting key = rt.waiting key)
    (hsessions : rt'.sessions = rt.sessions) (hpending : rt'.pending = rt.pending) :
    Books origin held exempt rt' := by
  obtain ⟨h1, h2, h3, h4, h5, h6, h7, h8⟩ := h
  constructor
  · rwa [hjobs]
  · rwa [hreserved, hjobs]
  · rwa [hconsumed, hjobs]
  · rwa [hconfig, hconsumed, hreserved]
  · simpa only [hwaiting, hjobs, hsessions] using h5
  · rwa [hsessions, hjobs]
  · rwa [hpending, hsessions]
  · rwa [hsessions]

theorem Books.exempting (h : Books origin held none rt) (key : Option Key) : Books origin held key rt :=
  ⟨h.sound, h.reserved, h.consumed, h.within, fun key ref _ => h.waits key ref (by simp), h.sessions, h.pending, h.started⟩

/-- A reservation that is not attached to a job. -/
theorem Books.reserve (h : Books origin held exempt rt) (n : Int)
    (hlimit : ∀ limit, rt.config.agent_calls = some limit → origin.bounded →
      rt.consumed + (rt.reserved + n) ≤ limit) :
    Books origin (held + n) exempt { rt with reserved := rt.reserved + n } := by
  refine ⟨h.sound, ?_, h.consumed, fun hb limit hl => hlimit limit hl hb, h.waits, h.sessions, h.pending, h.started⟩
  show rt.reserved + n = (rt.jobs.map Job.holds).sum + (held + n)
  rw [h.reserved]
  omega

theorem Books.release (h : Books origin held exempt rt) (n : Int) (hn : 0 ≤ n) :
    Books origin (held - n) exempt { rt with reserved := rt.reserved - n } := by
  refine ⟨h.sound, ?_, h.consumed, fun hb limit hlimit => ?_, h.waits, h.sessions,
    h.pending, h.started⟩
  · show rt.reserved - n = (rt.jobs.map Job.holds).sum + (held - n)
    rw [h.reserved]
    omega
  · have := h.within hb limit hlimit
    show rt.consumed + (rt.reserved - n) ≤ limit
    omega

/-- Changing a job and the counters: the books move by what the job holds and is charged,
before and after. -/
theorem Books.update {ref : Nat} {job : Job} {f : Job → Job} {held' reserved consumed : Int}
    (h : Books origin held exempt rt) (hjob : rt.jobs[ref]? = some job)
    (hsound : (f job).live = true → (f job).Sound)
    (hreserved : reserved - held' - (f job).holds = rt.reserved - held - job.holds)
    (hconsumed : consumed - (f job).charge = rt.consumed - job.charge)
    (hwithin : consumed + reserved ≤ rt.consumed + rt.reserved) (hkey : (f job).key = job.key)
    (hlive : ∀ key, some key ≠ exempt → rt.waiting key = some ref → (f job).live = false)
    (hsession : ref ∈ rt.sessions → (f job).accounted = true ∨ (f job).live = true) :
    Books origin held' exempt { rt.updateJob ref f with reserved := reserved, consumed := consumed } := by
  have hat (n : Nat) : (rt.jobs.modify ref f)[n]? = (rt.jobs[n]?).map fun a => if ref = n then f a else a := by
    rw [List.getElem?_modify]
    rfl
  constructor
  · intro j hj hl
    rcases mem_modify hj with hj | ⟨a, ha, rfl⟩
    · exact h.sound j hj hl
    · cases ha.symm.trans hjob
      exact hsound hl
  · show reserved = ((rt.jobs.modify ref f).map Job.holds).sum + held'
    have := h.reserved
    rw [sum_modify hjob]
    omega
  · show consumed = ((rt.jobs.modify ref f).map Job.charge).sum
    have := h.consumed
    rw [sum_modify hjob]
    omega
  · intro hb limit hlimit
    have hbefore := h.within hb limit hlimit
    show consumed + reserved ≤ (limit : Int)
    omega
  · intro key n hkey' hn
    obtain ⟨a, ha, halive, hnot, hakey⟩ := h.waits key n hkey' hn
    refine ⟨if ref = n then f a else a, (hat n).trans (by rw [ha]; rfl), ?_, hnot, ?_⟩
    · split
      · rename_i hrn
        subst hrn
        cases ha.symm.trans hjob
        exact hlive key hkey' hn
      · exact halive
    · split
      · rename_i hrn
        subst hrn
        cases ha.symm.trans hjob
        rw [hkey, hakey]
      · exact hakey
  · intro n hn
    obtain ⟨a, ha, hor⟩ := h.sessions n hn
    refine ⟨if ref = n then f a else a, (hat n).trans (by rw [ha]; rfl), ?_⟩
    split
    · rename_i hrn
      subst hrn
      cases ha.symm.trans hjob
      exact hsession hn
    · exact hor
  · exact h.pending
  · exact h.started

/-- Assigning a job that keeps its charge. -/
theorem Books.assign {ref : Nat} {job : Job} {f : Job → Job} (h : Books origin held exempt rt)
    (hjob : rt.jobs[ref]? = some job) (hsound : (f job).live = true → (f job).Sound)
    (hcharge : (f job).charge = job.charge) (hkey : (f job).key = job.key)
    (hlive : ∀ key, some key ≠ exempt → rt.waiting key = some ref → (f job).live = false)
    (hsession : ref ∈ rt.sessions → (f job).accounted = true ∨ (f job).live = true) :
    Books origin (held - ((f job).holds - job.holds)) exempt (rt.updateJob ref f) :=
  h.update hjob hsound (by omega) (by omega) (by omega) hkey
    hlive hsession

/-- A job that no session runs may change while it does not come alive. -/
theorem Books.assign_idle {ref : Nat} {job : Job} {f : Job → Job} (h : Books origin held exempt rt)
    (hjob : rt.jobs[ref]? = some job) (hidle : job.live = false) (hunlisted : ref ∉ rt.sessions)
    (hlive : (f job).live = false) (hcalls : (f job).api_calls = job.api_calls) (hkey : (f job).key = job.key) :
    Books origin held exempt (rt.updateJob ref f) := by
  have hcharge : (f job).charge = job.charge := by rw [charge_idle hlive, charge_idle hidle, hcalls]
  have hassign := h.assign hjob (by simp [hlive]) hcharge hkey (fun _ _ _ => hlive)
    fun hmem => absurd hmem hunlisted
  rwa [holds_idle hlive, holds_idle hidle, sub_zero, sub_zero] at hassign

/-- A job as it is published. -/
structure Job.Fresh (budget : Int) (job : Job) : Prop where
  live : job.live = true
  unused : job.api_calls = 0
  unresumed : job.previous_api_calls = 0
  allowed : job.api_budget = budget
  attached : job.reserved_calls = budget

/-- A live job that no journal knows. -/
structure Started (ref : Nat) (rt : Runtime) : Prop where
  live : ∃ job, rt.jobs[ref]? = some job ∧ job.live = true
  unlisted : ∀ key, rt.waiting key ≠ some ref

/-- Publishing a fresh job attaches its reservation. -/
theorem Books.append {job : Job} (h : Books origin held none rt) (hheld : 0 < held) (hjob : job.Fresh held) :
    Books origin 0 none { rt with jobs := rt.jobs ++ [job] } ∧
      Started rt.jobs.length { rt with jobs := rt.jobs ++ [job] } := by
  obtain ⟨hlive, hunused, hunresumed, hbudget, hreserved⟩ := hjob
  have hold {n : Nat} {a : Job} (ha : rt.jobs[n]? = some a) : (rt.jobs ++ [job])[n]? = some a := by
    rw [List.getElem?_append_left (List.getElem?_eq_some_iff.mp ha).1, ha]
  have hwaiting (key : Key) (n : Nat) (hn : rt.waiting key = some n) : ∃ a, rt.jobs[n]? = some a := by
    obtain ⟨a, ha, -⟩ := h.waits key n (by simp) hn
    exact ⟨a, ha⟩
  refine ⟨⟨?_, ?_, ?_, h.within, ?_, ?_, h.pending, h.started⟩, ⟨job, by simp, hlive⟩, fun key hn => ?_⟩
  · intro j hj hl
    rcases List.mem_append.mp hj with hj | hj
    · exact h.sound j hj hl
    · rw [List.mem_singleton.mp hj]
      exact ⟨by rw [hbudget, hunresumed, hreserved]; simp, by omega, by rw [hunused, hbudget]; simp; omega⟩
  · show rt.reserved = ((rt.jobs ++ [job]).map Job.holds).sum + 0
    simp only [List.map_append, List.sum_append, List.map_cons, List.map_nil, List.sum_cons, List.sum_nil,
      Job.holds, hlive, if_true, hreserved, h.reserved]
    omega
  · show rt.consumed = ((rt.jobs ++ [job]).map Job.charge).sum
    simp only [List.map_append, List.sum_append, List.map_cons, List.map_nil, List.sum_cons, List.sum_nil,
      Job.charge, hlive, if_true, hunresumed, h.consumed]
    simp
  · intro key n hkey hn
    obtain ⟨a, ha, hrest⟩ := h.waits key n hkey hn
    exact ⟨a, hold ha, hrest⟩
  · intro n hn
    obtain ⟨a, ha, hrest⟩ := h.sessions n hn
    exact ⟨a, hold ha, hrest⟩
  · obtain ⟨a, ha⟩ := hwaiting key _ hn
    simp at ha

/-- A started job joins the sessions. -/
theorem Books.start {ref : Nat} (h : Books origin held none rt) (hstarted : Started ref rt) :
    Books origin held none { rt with sessions := rt.sessions ++ [ref] } := by
  refine ⟨h.sound, h.reserved, h.consumed, h.within, fun key n hkey hn => ?_, fun n hn => ?_,
    fun n hn => List.mem_append_left _ (h.pending n hn), fun n hn => List.mem_append_left _ (h.started n hn)⟩
  · obtain ⟨a, ha, halive, hnot, hakey⟩ := h.waits key n hkey hn
    refine ⟨a, ha, halive, fun hmem => ?_, hakey⟩
    rcases List.mem_append.mp hmem with hmem | hmem
    · exact hnot hmem
    · exact hstarted.unlisted key (by rw [List.mem_singleton.mp hmem] at hn; exact hn)
  · rcases List.mem_append.mp hn with hn | hn
    · exact h.sessions n hn
    · obtain ⟨a, ha, hlive⟩ := hstarted.live
      exact ⟨a, List.mem_singleton.mp hn ▸ ha, Or.inr hlive⟩

/-! ### Session events -/

theorem observe_accounted {job : Job} (h : job.accounted = true) (details : Details) :
    job.observe details = job := by
  rw [Job.observe, if_pos h]

@[simp] theorem observe_key (job : Job) (details : Details) : (job.observe details).key = job.key := by
  unfold Job.observe
  split <;> rfl

@[simp] theorem observe_live (job : Job) (details : Details) : (job.observe details).live = job.live := by
  unfold Job.observe
  split <;> rfl

@[simp] theorem observe_holds (job : Job) (details : Details) : (job.observe details).holds = job.holds := by
  unfold Job.observe
  split <;> rfl

@[simp] theorem observe_accounted_eq (job : Job) (details : Details) :
    (job.observe details).accounted = job.accounted := by
  unfold Job.observe
  split <;> rfl

/-- A live job stays within its budget whatever its session reports. -/
theorem observe_sound {job : Job} (hlive : job.live = true) (h : job.Sound) (details : Details) :
    (job.observe details).Sound := by
  have hunaccounted : job.accounted = false := by
    simp only [Job.live, Bool.and_eq_true, Bool.not_eq_true'] at hlive
    exact hlive.2
  obtain ⟨hbudget, hresumed, hwithin⟩ := h
  rw [Job.observe, if_neg (by simp [hunaccounted])]
  cases details.api_calls with
  | none => exact ⟨hbudget, hresumed, hwithin⟩
  | some calls =>
    refine ⟨hbudget, ?_, ?_⟩
    · show job.previous_api_calls ≤ (max (job.api_calls : Int) (min job.api_budget calls)).toNat
      omega
    · show ((max (job.api_calls : Int) (min job.api_budget calls)).toNat : Int) ≤ job.api_budget
      omega

theorem observe_charge {job : Job} (h : job.accounted = true ∨ job.live = true) (details : Details) :
    (job.observe details).charge = job.charge := by
  rcases h with h | h
  · rw [observe_accounted h]
  · rw [Job.charge, Job.charge, observe_live, if_pos h, if_pos h]
    unfold Job.observe
    split <;> rfl

/-- What a session event may do to the state. -/
def Events : Runtime → Runtime → Prop :=
  Relation.ReflTransGen fun rt rt' => ∃ event, rt.event event = some rt'

theorem Events.refl (rt : Runtime) : Events rt rt := Relation.ReflTransGen.refl

theorem stable_of_event {P : Runtime → Prop} (h : ∀ event rt rt', P rt → rt.event event = some rt' → P rt') :
    Prog.Stable Events P := by
  intro rt rt' hP hevents
  induction hevents with
  | refl => exact hP
  | tail _ hstep ih =>
    obtain ⟨event, hevent⟩ := hstep
    exact h event _ _ ih hevent

theorem Books.event (h : Books origin held exempt rt) {event : Nat × Details}
    (hevent : rt.event event = some rt') : Books origin held exempt rt' := by
  rw [Runtime.event] at hevent
  split at hevent
  · rename_i hmem
    obtain rfl := Option.some.inj hevent
    obtain ⟨job, hjob, hor⟩ := h.sessions _ hmem
    have hsound (hlive : (job.observe event.2).live = true) : (job.observe event.2).Sound := by
      rw [observe_live] at hlive
      exact observe_sound hlive (h.sound job (List.mem_of_getElem? hjob) hlive) _
    have hassign := h.assign hjob hsound (observe_charge hor _) (observe_key job _)
      (fun key hkey hwaiting => absurd hmem (h.waits key _ hkey hwaiting).choose_spec.2.2.1)
      (fun _ => by rwa [observe_accounted_eq, observe_live])
    rwa [observe_holds, sub_self, sub_zero] at hassign
  · cases hevent

theorem stable_books : Prog.Stable Events (Books origin held exempt) :=
  stable_of_event fun _ _ _ h hevent => h.event hevent

/-- Session events touch the jobs of started sessions, and nothing else. -/
theorem event_eq {event : Nat × Details} (h : rt.event event = some rt') :
    event.1 ∈ rt.sessions ∧ rt' = rt.updateJob event.1 (Job.observe event.2) := by
  rw [Runtime.event] at h
  split at h
  · exact ⟨‹_›, (Option.some.inj h).symm⟩
  · cases h

theorem stable_started (ref : Nat) : Prog.Stable Events (Started ref) :=
  stable_of_event fun event rt rt' h hevent => by
    obtain ⟨-, rfl⟩ := event_eq hevent
    obtain ⟨⟨job, hjob, hlive⟩, hunlisted⟩ := h
    refine ⟨⟨if event.1 = ref then job.observe event.2 else job, ?_, ?_⟩, hunlisted⟩
    · show (rt.jobs.modify event.1 (Job.observe event.2))[ref]? = _
      rw [List.getElem?_modify, hjob]
      rfl
    · split
      · rwa [observe_live]
      · exact hlive

/-- What session events leave alone. -/
structure Undisturbed (rt rt' : Runtime) : Prop where
  config : rt'.config = rt.config
  consumed : rt'.consumed = rt.consumed
  reserved : rt'.reserved = rt.reserved
  sessions : rt'.sessions = rt.sessions
  length : rt'.jobs.length = rt.jobs.length
  waiting : rt'.waiting = rt.waiting
  job : ∀ ref, ref ∉ rt.sessions → rt'.jobs[ref]? = rt.jobs[ref]?

theorem Undisturbed.trans {rt'' : Runtime} (h : Undisturbed rt rt') (h' : Undisturbed rt' rt'') :
    Undisturbed rt rt'' :=
  ⟨h'.config.trans h.config, h'.consumed.trans h.consumed, h'.reserved.trans h.reserved,
    h'.sessions.trans h.sessions, h'.length.trans h.length, h'.waiting.trans h.waiting,
    fun ref href => (h'.job ref (h.sessions.symm ▸ href)).trans (h.job ref href)⟩

theorem Events.undisturbed (h : Events rt rt') : Undisturbed rt rt' := by
  refine stable_of_event (P := Undisturbed rt) (fun event s s' hs hevent => ?_) rt rt'
    ⟨rfl, rfl, rfl, rfl, rfl, rfl, fun _ _ => rfl⟩ h
  obtain ⟨hmem, rfl⟩ := event_eq hevent
  obtain ⟨h1, h2, h3, h4, h5, h6, h7⟩ := hs
  refine ⟨h1, h2, h3, h4, ?_, h6, fun ref href => ?_⟩
  · rw [← h5]
    exact List.length_modify ..
  · rw [← h7 ref href]
    refine List.getElem?_modify_ne _ _ ?_
    rintro rfl
    exact href (h4 ▸ hmem)

theorem stable_undisturbed (rt : Runtime) : Prog.Stable Events (Undisturbed rt) :=
  fun _ _ h hevents => h.trans hevents.undisturbed

end LeanFlow.Jobs
