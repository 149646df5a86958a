import LeanFlow.Jobs.Budget

/-! Role allowances.

The sessions of a role are counted anew from the jobs each time. A running job
counts as one session more than it had used before, whatever it has reported of it
so far; any other job counts what it used. So the count of a group moves when a
session is admitted, which `require_capacity` guards, and when one is settled. -/
namespace LeanFlow.Jobs
open General Goals Source

variable {C : CharClass} {region : Text → String → Text} {origin : Origin} {rt rt' : Runtime}
  {config : Config} {caps : Role → Prop} {spare : Option Role}

/-! ### What a job counts -/

/-- What a job adds to what its group has used and reserved. -/
def Job.counts (job : Job) : Int :=
  job.api_calls + if job.live then
    max 0 (job.reserved_calls - max 0 ((job.api_calls : Int) - job.previous_api_calls)) else 0

def Job.countsFor (group : Role) (job : Job) : Int := if role_group job.role = group then job.counts else 0

def Runtime.counted (rt : Runtime) (group : Role) : Int := (rt.jobs.map (Job.countsFor group)).sum

theorem counts_idle {job : Job} (h : job.live = false) : job.counts = job.api_calls := by
  simp [Job.counts, h]

theorem metrics_counted (rt : Runtime) (config : Config) (group : Role) :
    (session_metrics rt.jobs config group).used + (session_metrics rt.jobs config group).reserved =
      rt.counted group := by
  show ((rt.jobs.filter _).map _).sum + (((rt.jobs.filter _).filter _).map _).sum = _
  rw [sum_filter, List.filter_filter, sum_filter, ← List.sum_map_add]
  refine congrArg List.sum (List.map_congr_left fun job _ => ?_)
  by_cases hgroup : role_group job.role = group <;> cases hlive : job.live <;>
    simp [Job.countsFor, Job.counts, hgroup, hlive]

theorem reserved_nonneg (jobs : List Job) (config : Config) (group : Role) :
    0 ≤ (session_metrics jobs config group).reserved := by
  refine List.sum_nonneg fun calls hcalls => ?_
  obtain ⟨job, -, rfl⟩ := List.mem_map.mp hcalls
  exact Int.le_max_left ..

/-- A running job is a session of one call. -/
structure Job.Single (job : Job) : Prop extends job.Sound where
  one : job.reserved_calls = 1

/-- The report of the call moves it from what is reserved to what is used. -/
theorem counts_single {job : Job} (hlive : job.live = true) (h : job.Single) :
    job.counts = job.previous_api_calls + 1 := by
  obtain ⟨⟨hbudget, hresumed, hwithin⟩, hone⟩ := h
  rw [Job.counts, if_pos hlive]
  omega

theorem observe_single {job : Job} (hlive : job.live = true) (h : job.Single) (details : Details) :
    (job.observe details).Single := by
  refine ⟨observe_sound hlive h.toSound details, ?_⟩
  rw [← h.one]
  unfold Job.observe
  split <;> rfl

@[simp] theorem observe_role (job : Job) (details : Details) : (job.observe details).role = job.role := by
  unfold Job.observe
  split <;> rfl

@[simp] theorem observe_previous (job : Job) (details : Details) :
    (job.observe details).previous_api_calls = job.previous_api_calls := by
  unfold Job.observe
  split <;> rfl

theorem observe_counts {job : Job} (hseat : job.accounted = true ∨ job.live = true)
    (hsingle : job.live = true → job.Single) (details : Details) : (job.observe details).counts = job.counts := by
  rcases hseat with haccounted | hlive
  · rw [observe_accounted haccounted]
  · have hsingle := hsingle hlive
    rw [counts_single (by rwa [observe_live]) (observe_single hlive hsingle details), counts_single hlive hsingle,
      observe_previous]

/-! ### The staff of a campaign -/

/-- One more session of the spared group. -/
def margin (spare : Option Role) (group : Role) : Int := if spare = some group then 1 else 0

theorem margin_none (group : Role) : margin none group = 0 := if_neg (by simp)

/-- Every started session is running or settled, a running job is a session of one call, and the
groups of `caps` are within their limits, with one session of the spared group to go. -/
structure Staffed (config : Config) (caps : Role → Prop) (spare : Option Role) (rt : Runtime) : Prop where
  same : rt.config = config
  seats : ∀ ref ∈ rt.sessions, ∃ job, rt.jobs[ref]? = some job ∧ (job.accounted = true ∨ job.live = true)
  single : ∀ job ∈ rt.jobs, job.live = true → job.Single
  capped : ∀ group, caps group → ∀ limit, config.limit group = some limit →
    rt.counted group + margin spare group ≤ (limit : Int)

theorem Staffed.congr (h : Staffed config caps spare rt) (hconfig : rt'.config = rt.config)
    (hjobs : rt'.jobs = rt.jobs) (hsessions : rt'.sessions = rt.sessions) : Staffed config caps spare rt' :=
  ⟨hconfig.trans h.same, by rw [hsessions, hjobs]; exact h.seats, by rw [hjobs]; exact h.single,
    by simpa only [Runtime.counted, hjobs] using h.capped⟩

theorem Staffed.spend (h : Staffed config caps spare rt) : Staffed config caps none rt :=
  ⟨h.same, h.seats, h.single, fun group hgroup limit hlimit => by
    have hcapped := h.capped group hgroup limit hlimit
    have hmargin : 0 ≤ margin spare group := by
      unfold margin
      split <;> decide
    rw [margin_none]
    omega⟩

/-- A job may change as long as it counts no more, beyond what was spared for it. -/
theorem Staffed.update {spare' : Option Role} {ref : Nat} {job : Job} {f : Job → Job}
    (h : Staffed config caps spare rt) (hjob : rt.jobs[ref]? = some job)
    (hsingle : (f job).live = true → (f job).Single)
    (hcounts : ∀ group, (f job).countsFor group + margin spare' group ≤ job.countsFor group + margin spare group)
    (hseat : ref ∈ rt.sessions → (f job).accounted = true ∨ (f job).live = true) :
    Staffed config caps spare' (rt.updateJob ref f) := by
  refine ⟨h.same, fun n hn => ?_, fun j hj hlive => ?_, fun group hgroup limit hlimit => ?_⟩
  · obtain ⟨a, ha, hor⟩ := h.seats n hn
    refine ⟨if ref = n then f a else a, ?_, ?_⟩
    · show (rt.jobs.modify ref f)[n]? = _
      rw [List.getElem?_modify, ha]
      rfl
    · split
      · rename_i hrn
        subst hrn
        cases ha.symm.trans hjob
        exact hseat hn
      · exact hor
  · rcases mem_modify hj with hj | ⟨a, ha, rfl⟩
    · exact h.single j hj hlive
    · cases ha.symm.trans hjob
      exact hsingle hlive
  · have hcapped := h.capped group hgroup limit hlimit
    have hchange := hcounts group
    show ((rt.jobs.modify ref f).map (Job.countsFor group)).sum + _ ≤ _
    rw [sum_modify hjob]
    unfold Runtime.counted at hcapped
    omega

theorem countsFor_le {job job' : Job} (hrole : job'.role = job.role) (h : job'.counts ≤ job.counts)
    (spare : Option Role) (group : Role) :
    job'.countsFor group + margin spare group ≤ job.countsFor group + margin spare group := by
  unfold Job.countsFor
  rw [hrole]
  split
  · omega
  · omega

theorem stable_staffed : Prog.Stable Events (Staffed config caps spare) :=
  stable_of_event fun event rt rt' h hevent => by
    obtain ⟨hmem, rfl⟩ := event_eq hevent
    obtain ⟨job, hjob, hseat⟩ := h.seats _ hmem
    have hsingle : job.live = true → job.Single := h.single job (List.mem_of_getElem? hjob)
    refine h.update hjob (fun hlive => ?_) (countsFor_le (observe_role job _) ?_ spare)
      fun _ => by rwa [observe_accounted_eq, observe_live]
    · rw [observe_live] at hlive
      exact observe_single hlive (hsingle hlive) _
    · exact (observe_counts hseat hsingle _).le

theorem kept_staffed : Prog.Kept Events (Staffed config caps none) (Staffed config caps spare) :=
  ⟨stable_staffed, fun _ h => h.spend⟩

theorem unfiled_staffed : Unfiled (Staffed config caps spare) :=
  ⟨stable_staffed, fun _ _ _ h => h.congr rfl rfl rfl⟩

theorem frame_staffed : Frame (Staffed config caps spare) :=
  ⟨stable_staffed, fun _ _ h => h.congr rfl rfl rfl⟩

/-- Settling a session counts what it used, which is within what it was admitted for. -/
theorem Staffed.settle (h : Staffed config caps spare rt) {ref : Nat} (hmem : ref ∈ rt.sessions)
    (result : Result) : Staffed config caps spare (rt.settle ref result) := by
  obtain ⟨job, hjob, hseat⟩ := h.seats ref hmem
  simp only [Runtime.settle, hjob]
  split
  · exact h
  · rename_i hopen
    rw [not_or] at hopen
    have hlive : job.live = true := hseat.resolve_left hopen.1
    have hsingle := h.single job (List.mem_of_getElem? hjob) hlive
    have hidle := settled_idle result job
    have hcalls : (job.settled result).counts = result.calls job := by
      rw [counts_idle hidle, ← charge_idle hidle, settled_charge]
    have hrole : (job.settled result).role = job.role := rfl
    have hcounts : (job.settled result).counts ≤ job.counts := by
      rw [hcalls, counts_single hlive hsingle, ← hsingle.one, ← hsingle.budget]
      exact not_lt.mp hopen.2
    exact (h.update hjob (f := Job.settled result) (by simp [hidle]) (countsFor_le hrole hcounts spare)
      fun _ => Or.inl rfl).congr rfl rfl rfl

theorem settling_staffed : Settling (Staffed config caps spare) :=
  ⟨fun _ _ result hmem h => h.settle hmem result, fun _ _ h => h.congr rfl rfl rfl⟩

/-- A started session is running. -/
theorem Staffed.start (h : Staffed config caps spare rt) {ref : Nat}
    (hlive : ∃ job, rt.jobs[ref]? = some job ∧ job.live = true) :
    Staffed config caps spare { rt with sessions := rt.sessions ++ [ref] } := by
  refine ⟨h.same, fun n hn => ?_, h.single, h.capped⟩
  rcases List.mem_append.mp hn with hn | hn
  · exact h.seats n hn
  · obtain ⟨job, hjob, hrunning⟩ := hlive
    exact ⟨job, List.mem_singleton.mp hn ▸ hjob, Or.inr hrunning⟩

/-! ### A fresh session -/

/-- A session that is running, whether or not it has been started. -/
def Running (ref : Nat) (rt : Runtime) : Prop := ∃ job, rt.jobs[ref]? = some job ∧ job.live = true

theorem stable_running (ref : Nat) : Prog.Stable Events (Running ref) :=
  stable_of_event fun event rt rt' h hevent => by
    obtain ⟨-, rfl⟩ := event_eq hevent
    obtain ⟨job, hjob, hlive⟩ := h
    refine ⟨if event.1 = ref then job.observe event.2 else job, ?_, ?_⟩
    · show (rt.jobs.modify event.1 (Job.observe event.2))[ref]? = _
      rw [List.getElem?_modify, hjob]
      rfl
    · split
      · rwa [observe_live]
      · exact hlive

/-- One call is reserved, or none. -/
theorem reserve_one {F I : Runtime → Prop} (hF : Frame F) (hI : ∀ rt, F rt → I rt) :
    Prog.Outline Events I F (reserve 1) (fun n rt => n = 1 ∧ F rt) fun _ => F := by
  have hkept : Prog.Kept Events I F := ⟨hF.stable, hI⟩
  refine .bind Events.refl (.bind Events.refl (.fault hkept fun _ h => h) fun _ => .fault hkept fun _ h => h)
    fun _ => ?_
  refine .bind Events.refl (.fault hkept fun _ h => h) fun _ => ?_
  refine .bind (Q := fun _ => F) Events.refl (.get hkept fun rt rt' h hevents => hF.stable rt rt' h hevents)
    fun rt => ?_
  refine .ite (fun _ => .raise hkept fun _ h => h) fun hremaining => ?_
  refine .ite (fun _ => .raise hkept fun _ h => h) fun _ => ?_
  refine .ite (fun _ => .raise hkept fun _ h => h) fun _ => ?_
  generalize hn : (rt.config.agent_calls.map fun (limit : Nat) =>
    (limit : Int) - rt.consumed - rt.reserved).elim 1 (min 1) = n
  have hone : n = 1 := by
    cases hlimit : rt.config.agent_calls with
    | none =>
      rw [hlimit] at hn
      exact hn.symm
    | some limit =>
      rw [hlimit] at hremaining hn
      have hle : ¬ (limit : Int) - rt.consumed - rt.reserved ≤ 0 := by simpa using hremaining
      change min 1 ((limit : Int) - rt.consumed - rt.reserved) = n at hn
      omega
  exact .bind (Q := fun _ => F) Events.refl (.modify hkept hkept fun rt h => hF.reserved rt _ h)
    fun _ => .ret hkept fun _ h => ⟨hone, h⟩

/-- What was counted when the limit was read is what is counted now: events do not move it. -/
theorem Staffed.spared {group : Role} (h : Staffed config caps none rt) (hevents : Events rt rt')
    (hroom : ∀ limit, rt.config.limit group = some limit → rt.counted group + 1 ≤ (limit : Int)) :
    Staffed config caps (some group) rt' := by
  refine stable_staffed rt rt' ⟨h.same, h.seats, h.single, fun other hother limit hlimit => ?_⟩ hevents
  have hcapped := h.capped other hother limit hlimit
  by_cases hgroup : group = other
  · subst hgroup
    rw [margin, if_pos rfl]
    exact hroom limit (h.same.symm ▸ hlimit)
  · rw [margin, if_neg (by simpa using hgroup)]
    rwa [margin_none] at hcapped

/-- A session is admitted only while its group has one to spare. -/
theorem require_capacity_outline {W : Runtime → Prop} (hW : Prog.Stable Events W) (role : Role) :
    Prog.Outline Events (Staffed config caps none) (fun rt => Staffed config caps none rt ∧ W rt)
      (require_capacity role) (fun _ rt => Staffed config caps (some (role_group role)) rt ∧ W rt)
      fun _ rt => Staffed config caps none rt ∧ W rt := by
  have hstable : Prog.Stable Events fun rt => Staffed config caps none rt ∧ W rt := stable_staffed.and hW
  refine .bind (Q := fun rt rt' => (Staffed config caps none rt' ∧ W rt') ∧
    Staffed config caps none rt ∧ Events rt rt') Events.refl (.get ⟨hstable, fun _ h => h.1⟩
      fun rt rt' h hevents => ⟨hstable _ _ h hevents, h.1, hevents⟩) fun rt => ?_
  have hkept : Prog.Kept Events (Staffed config caps none) fun rt' =>
      (Staffed config caps none rt' ∧ W rt') ∧ Staffed config caps none rt ∧ Events rt rt' :=
    ⟨fun _ _ h hevents => ⟨hstable _ _ h.1 hevents, h.2.1, Relation.ReflTransGen.trans h.2.2 hevents⟩,
      fun _ h => h.1.1⟩
  dsimp only
  cases hlimit : (session_metrics rt.jobs rt.config (role_group role)).limit with
  | none =>
    refine .ret hkept fun rt' h => ⟨h.2.1.spared h.2.2 fun limit hsome => ?_, h.1.2⟩
    cases hsome.symm.trans hlimit
  | some limit =>
    refine .ite (fun _ => .raise hkept fun _ h => h.1) fun hroom => .ret hkept fun rt' h =>
      ⟨h.2.1.spared h.2.2 fun limit' hsome => ?_, h.1.2⟩
    have hcount := metrics_counted rt rt.config (role_group role)
    cases hsome.symm.trans hlimit
    omega

/-- A fresh job is the session that was spared. -/
theorem Staffed.append {job : Job} (h : Staffed config caps (some (role_group job.role)) rt)
    (hjob : job.Fresh 1) : Staffed config caps none { rt with jobs := rt.jobs ++ [job] } := by
  obtain ⟨hlive, hunused, hunresumed, hbudget, hreserved⟩ := hjob
  have hsingle : job.Single :=
    ⟨⟨by rw [hbudget, hunresumed, hreserved]; rfl, by omega, by rw [hunused, hbudget]; decide⟩, hreserved⟩
  refine ⟨h.same, fun ref href => ?_, fun j hj hjlive => ?_, fun group hgroup limit hlimit => ?_⟩
  · obtain ⟨a, ha, hor⟩ := h.seats ref href
    exact ⟨a, by rw [List.getElem?_append_left (List.getElem?_eq_some_iff.mp ha).1, ha], hor⟩
  · rcases List.mem_append.mp hj with hj | hj
    · exact h.single j hj hjlive
    · rw [List.mem_singleton.mp hj]
      exact hsingle
  · have hcapped := h.capped group hgroup limit hlimit
    have hcounts := counts_single hlive hsingle
    have hmargin : job.countsFor group ≤ margin (some (role_group job.role)) group := by
      unfold Job.countsFor margin
      by_cases hrole : role_group job.role = group
      · rw [if_pos hrole, if_pos (congrArg some hrole), hcounts, hunresumed]
        decide
      · rw [if_neg hrole, if_neg (by simpa using hrole)]
    show ((rt.jobs ++ [job]).map (Job.countsFor group)).sum + margin none group ≤ _
    rw [List.map_append, List.sum_append, List.map_singleton, List.sum_singleton, margin_none]
    unfold Runtime.counted at hcapped
    omega

theorem fresh_job_outline (role : Role) (node : Option Node) (prompt : String) :
    Prog.Outline Events (Staffed config caps none) (Staffed config caps (some (role_group role)))
      (fresh_job C region role node prompt)
      (fun prepared rt => Staffed config caps none rt ∧ Running prepared.1 rt)
      fun _ => Staffed config caps none := by
  have hspared : Prog.Kept Events (Staffed config caps none) (Staffed config caps (some (role_group role))) :=
    kept_staffed
  refine .bind Events.refl ((reserve_one frame_staffed fun _ h => h.spend).mono (fun _ h => h) (fun _ _ h => h)
    fun _ _ h => h.spend) fun budget => ?_
  rintro rt₀ ⟨rfl, hstaffed⟩
  refine (?_ : Prog.Outline _ _ (Staffed config caps (some (role_group role))) _ _ _) rt₀ hstaffed
  refine .bind (Q := fun _ => Staffed config caps (some (role_group role))) Events.refl
    (.get hspared fun _ _ h hevents => stable_staffed _ _ h hevents) fun rt => ?_
  refine .bind (Q := fun _ => Staffed config caps (some (role_group role))) Events.refl ?_ fun _ => ?_
  · refine .handle (E := fun _ => Staffed config caps (some (role_group role))) Events.refl
      (.fault hspared fun _ h => h) fun e => ?_
    exact .bind (Q := fun _ => Staffed config caps none) Events.refl
      (.modify hspared kept_staffed fun _ h => h.spend.congr rfl rfl rfl) fun _ => .raise kept_staffed fun _ h => h
  refine .bind (Q := fun prepared rt => (prepared.1.Fresh 1 ∧ prepared.1.role = role) ∧
    Staffed config caps (some (role_group role)) rt) Events.refl ?_ fun prepared => ?_
  · refine .handle (E := fun _ => Staffed config caps (some (role_group role))) Events.refl
      (build_job_outline unfiled_staffed (fun _ h => h.spend) _ role node prompt 1) fun e => ?_
    refine .bind (Q := fun _ => Staffed config caps none) Events.refl
      (.modify hspared kept_staffed fun _ h => h.spend.congr rfl rfl rfl) fun _ => ?_
    refine .bind (Q := fun _ => Staffed config caps none) Events.refl
      (.modify kept_staffed kept_staffed fun _ h => h.congr rfl rfl rfl) fun _ => ?_
    exact .bind Events.refl (.fault kept_staffed fun _ h => h) fun _ => .raise kept_staffed fun _ h => h
  obtain ⟨job, context⟩ := prepared
  rintro rt₁ ⟨⟨hfresh, hrole⟩, hstaffed⟩
  obtain rfl : job.role = role := hrole
  refine (?_ : Prog.Outline _ _ (Staffed config caps (some (role_group job.role))) _ _ _) rt₁ hstaffed
  refine .bind (Q := fun before rt => Staffed config caps (some (role_group job.role)) rt ∧ Undisturbed before rt)
    Events.refl (.get hspared fun _ _ h hevents => ⟨stable_staffed _ _ h hevents, hevents.undisturbed⟩)
    fun before => ?_
  have hrunning : Prog.Kept Events (Staffed config caps none)
      fun rt => Staffed config caps none rt ∧ Running before.jobs.length rt :=
    ⟨stable_staffed.and (stable_running _), fun _ h => h.1⟩
  refine .bind (Q := fun _ rt => Staffed config caps none rt ∧ Running before.jobs.length rt) Events.refl
    (.modify ⟨stable_staffed.and (stable_undisturbed before), fun _ h => h.1.spend⟩ hrunning ?_) fun _ => ?_
  · rintro rt ⟨hstaffed, hsame⟩
    exact ⟨hstaffed.append hfresh, job, by simp [← hsame.length], hfresh.live⟩
  · exact .bind Events.refl (.fault hrunning fun _ h => h.1) fun _ => .ret hrunning fun _ h => h

/-! ### A resumed session -/

namespace Attempt
variable {a : Attempt} {job : Job}

/-- How far the job has got: still idle, or running as the one session that was spared. -/
structure Fits (a : Attempt) (job : Job) : Prop where
  role : job.role = a.previous.role
  counts : job.live = false ∧ job.api_calls = a.previous.api_calls ∨
    job.live = true ∧ job.Single ∧ job.previous_api_calls = a.previous.api_calls

/-- The job being resumed, which no session has; with the job put back there is one to spare. -/
structure Lent (config : Config) (caps : Role → Prop) (a : Attempt) (job : Job) (rt : Runtime) : Prop where
  idle : a.ref ∉ rt.sessions
  group : a.previous.live = false ∧ role_group a.previous.role = role_group a.role
  back : Staffed config caps (some (role_group a.role)) (rt.updateJob a.ref fun _ => a.previous)
  fits : a.Fits job
  job : rt.jobs[a.ref]? = some job

theorem Lent.staffed (h : a.Lent config caps job rt) : Staffed config caps none rt := by
  have hprevious : (rt.updateJob a.ref fun _ => a.previous).jobs[a.ref]? = some a.previous := by
    show (rt.jobs.modify a.ref _)[a.ref]? = _
    rw [List.getElem?_modify_eq, h.job]
    rfl
  have hself : (rt.updateJob a.ref fun _ => a.previous).updateJob a.ref (fun _ => job) = rt := by
    have hjobs : (rt.jobs.modify a.ref fun _ => a.previous).modify a.ref (fun _ => job) = rt.jobs := by
      rw [List.modify_modify_eq]
      exact modify_eq_self fun b hb => Option.some.inj (h.job.symm.trans hb)
    simp only [Runtime.updateJob, hjobs]
  obtain ⟨hrole, hcounts⟩ := h.fits
  rw [← hself]
  refine h.back.update hprevious (fun hlive => ?_) (fun group => ?_) fun hmem => absurd hmem h.idle
  · rcases hcounts with ⟨hidle, -⟩ | ⟨-, hsingle, -⟩
    · rw [hlive] at hidle
      cases hidle
    · exact hsingle
  · have hbefore : a.previous.counts = a.previous.api_calls := counts_idle h.group.1
    have hafter : job.counts ≤ a.previous.counts + 1 := by
      rcases hcounts with ⟨hidle, hcalls⟩ | ⟨hlive, hsingle, hcalls⟩
      · rw [counts_idle hidle, hbefore, hcalls]
        omega
      · rw [counts_single hlive hsingle, hbefore, hcalls]
    unfold Job.countsFor margin
    rw [hrole, ← h.group.2]
    simp only [Option.some.injEq, reduceCtorEq, if_false]
    split <;> omega

theorem stable_lent : Prog.Stable Events (a.Lent config caps job) :=
  stable_of_event fun event rt rt' h hevent => by
    obtain ⟨hmem, rfl⟩ := event_eq hevent
    have hne : event.1 ≠ a.ref := fun heq => h.idle (heq ▸ hmem)
    refine ⟨h.idle, h.group, ?_, h.fits, ?_⟩
    · have hswap : (rt.updateJob event.1 (Job.observe event.2)).updateJob a.ref (fun _ => a.previous) =
          (rt.updateJob a.ref fun _ => a.previous).updateJob event.1 (Job.observe event.2) := by
        have hjobs := List.modify_modify_ne (fun _ => a.previous) (Job.observe event.2) rt.jobs hne.symm
        simp only [Runtime.updateJob, hjobs]
      rw [hswap]
      exact stable_staffed _ _ h.back (Events.of_event event _ _ (if_pos hmem))
    · show (rt.jobs.modify event.1 _)[a.ref]? = _
      rw [List.getElem?_modify_ne _ _ hne, h.job]

theorem kept_lent : Prog.Kept Events (Staffed config caps none) (a.Lent config caps job) :=
  ⟨stable_lent, fun _ h => h.staffed⟩

theorem Lent.congr (h : a.Lent config caps job rt) (hconfig : rt'.config = rt.config)
    (hjobs : rt'.jobs = rt.jobs) (hsessions : rt'.sessions = rt.sessions) : a.Lent config caps job rt' :=
  ⟨hsessions.symm ▸ h.idle, h.group, h.back.congr hconfig (by simp only [Runtime.updateJob, hjobs]) hsessions,
    h.fits, hjobs.symm ▸ h.job⟩

theorem Lent.update (h : a.Lent config caps job rt) {f : Job → Job} (hfits : a.Fits (f job)) :
    a.Lent config caps (f job) (rt.updateJob a.ref f) := by
  refine ⟨h.idle, h.group, ?_, hfits, ?_⟩
  · have hback : (rt.updateJob a.ref f).updateJob a.ref (fun _ => a.previous) =
        rt.updateJob a.ref fun _ => a.previous := by
      have hjobs : (rt.jobs.modify a.ref f).modify a.ref (fun _ => a.previous) =
          rt.jobs.modify a.ref fun _ => a.previous := List.modify_modify_eq ..
      simp only [Runtime.updateJob, hjobs]
    rw [hback]
    exact h.back
  · show (rt.jobs.modify a.ref f)[a.ref]? = _
    rw [List.getElem?_modify_eq, h.job]
    rfl

theorem frame_lent : Frame (a.Lent config caps job) := ⟨stable_lent, fun _ _ h => h.congr rfl rfl rfl⟩

/-- The job as the call found it. -/
structure Untouched (config : Config) (caps : Role → Prop) (a : Attempt) (rt : Runtime) : Prop where
  staffed : Staffed config caps none rt
  idle : a.ref ∉ rt.sessions
  job : rt.jobs[a.ref]? = some a.previous

theorem Untouched.same (h : a.Untouched config caps rt) : rt.updateJob a.ref (fun _ => a.previous) = rt := by
  have hjobs : rt.jobs.modify a.ref (fun _ => a.previous) = rt.jobs :=
    modify_eq_self fun b hb => Option.some.inj (h.job.symm.trans hb)
  simp only [Runtime.updateJob, hjobs]

theorem stable_untouched : Prog.Stable Events (a.Untouched config caps) :=
  fun _ _ h hevents => ⟨stable_staffed _ _ h.staffed hevents, hevents.undisturbed.sessions.symm ▸ h.idle,
    (hevents.undisturbed.job _ h.idle).trans h.job⟩

/-- The job at some point of being resumed. -/
def Borrowed (config : Config) (caps : Role → Prop) (a : Attempt) (rt : Runtime) : Prop :=
  a.Untouched config caps rt ∨ ∃ job, a.Lent config caps job rt

theorem Lent.borrowed (h : a.Lent config caps job rt) : a.Borrowed config caps rt := Or.inr ⟨job, h⟩

theorem kept_borrowed : Prog.Kept Events (Staffed config caps none) (a.Borrowed config caps) := by
  refine ⟨fun rt rt' h hevents => ?_, fun rt h => ?_⟩
  · rcases h with h | ⟨job, h⟩
    · exact Or.inl (stable_untouched rt rt' h hevents)
    · exact Or.inr ⟨job, stable_lent rt rt' h hevents⟩
  · rcases h with h | ⟨job, h⟩
    · exact h.staffed
    · exact h.staffed

/-- What the job is while its call is being reserved. -/
theorem extended_fits (hidle : a.previous.live = false) (n : Int) :
    a.Fits { a.previous.extended with reserved_calls := n } := ⟨rfl, Or.inl ⟨hidle, rfl⟩⟩

theorem restarted_fits : a.Fits { a.previous.extended with reserved_calls := 1 }.restarted :=
  ⟨rfl, Or.inr ⟨rfl, ⟨restarted_sound rfl (by show (0 : Int) ≤ 1; decide), rfl⟩, rfl⟩⟩

theorem reserve_call_outline (hidle : a.previous.live = false) :
    Prog.Outline Events (Staffed config caps none) (a.Lent config caps a.previous.extended) (reserve_call a.ref)
      (fun _ => a.Lent config caps { a.previous.extended with reserved_calls := 1 })
      fun _ => a.Borrowed config caps := by
  refine .bind Events.refl ((reserve_one frame_lent fun _ h => h.staffed).mono (fun _ h => h) (fun _ _ h => h)
    fun _ _ h => h.borrowed) fun n => ?_
  rintro rt₀ ⟨rfl, hlent⟩
  refine (?_ : Prog.Outline _ _ (a.Lent config caps a.previous.extended) _ _ _) rt₀ hlent
  refine .bind (Q := fun _ => a.Lent config caps { a.previous.extended with reserved_calls := 1 }) Events.refl
    (.modify kept_lent kept_lent fun rt h => ?_) fun _ => ?_
  · exact h.update (f := fun job => { job with reserved_calls := 1 }) (extended_fits hidle 1)
  · exact .ite (fun hne => absurd rfl hne) fun _ => .ret kept_lent fun _ h => h

theorem extend_outline (hidle : a.previous.live = false) :
    Prog.Outline Events (Staffed config caps none) (a.Lent config caps a.previous)
      (Prog.modify (Runtime.updateJob a.ref Job.extended) : Controller Unit)
      (fun _ => a.Lent config caps a.previous.extended) fun _ => a.Borrowed config caps :=
  .modify kept_lent kept_lent fun _ h => h.update (f := Job.extended) ⟨rfl, Or.inl ⟨hidle, rfl⟩⟩

theorem restart_outline :
    Prog.Outline Events (Staffed config caps none)
      (a.Lent config caps { a.previous.extended with reserved_calls := 1 })
      (Prog.modify (Runtime.updateJob a.ref Job.restarted) : Controller Unit)
      (fun _ => a.Lent config caps { a.previous.extended with reserved_calls := 1 }.restarted)
      fun _ => a.Borrowed config caps :=
  .modify kept_lent kept_lent fun _ h => h.update restarted_fits

/-- The job as its session starts again. -/
abbrev again (a : Attempt) : Job := { a.previous.extended with reserved_calls := 1 }.restarted

theorem lent_fault (e : Raised) :
    Prog.Outline Events (Staffed config caps none) (a.Lent config caps job) (Prog.fault e : Controller Unit)
      (fun _ => a.Lent config caps job) fun _ => a.Borrowed config caps := .fault kept_lent fun _ h => h.borrowed

theorem lent_checked {α : Type} (result : Except ValueError α) :
    Prog.Outline Events (Staffed config caps none) (a.Lent config caps job) (checked result)
      (fun _ => a.Lent config caps job) fun _ => a.Borrowed config caps :=
  .ofExcept kept_lent (fun _ _ _ h => h) fun _ _ _ h => h.borrowed

theorem lent_get :
    Prog.Outline Events (Staffed config caps none) (a.Lent config caps job) (Prog.get : Controller Runtime)
      (fun _ => a.Lent config caps job) fun _ => a.Borrowed config caps :=
  .get kept_lent fun _ _ h hevents => stable_lent _ _ h hevents

theorem lent_erase (role : Role) (node : Option Node) (prompt : String) :
    Prog.Outline Events (Staffed config caps none) (a.Lent config caps job)
      (Prog.modify (Runtime.putResumed role node prompt fun key jobs => jobs.erase key) : Controller Unit)
      (fun _ => a.Lent config caps job) fun _ => a.Borrowed config caps :=
  .modify kept_lent kept_lent fun _ h => h.congr putResumed_config putResumed_jobs putResumed_sessions

theorem resume_role_job_outline (hidle : a.previous.live = false) :
    Prog.Outline Events (Staffed config caps none) (a.Lent config caps a.previous)
      (resume_role_job a.ref a.role a.prompt)
      (fun prepared rt => prepared.1 = a.ref ∧ a.Lent config caps a.again rt) fun _ => a.Borrowed config caps := by
  refine .bind Events.refl (extend_outline hidle) fun _ => ?_
  refine .bind Events.refl (reserve_call_outline hidle) fun _ => ?_
  refine .bind Events.refl restart_outline fun _ => ?_
  refine .bind Events.refl (lent_fault _) fun _ => .bind Events.refl lent_get fun _ => ?_
  refine .bind Events.refl (lent_erase _ _ _) fun _ => .bind Events.refl (lent_fault _) fun _ => ?_
  exact .ret kept_lent fun _ h => ⟨rfl, h⟩

theorem resume_node_job_outline (hidle : a.previous.live = false) (node : Node) :
    Prog.Outline Events (Staffed config caps none) (a.Lent config caps a.previous)
      (resume_node_job region a.ref a.role node)
      (fun prepared rt => prepared.1 = a.ref ∧ a.Lent config caps a.again rt) fun _ => a.Borrowed config caps := by
  refine .bind Events.refl (extend_outline hidle) fun _ => ?_
  refine .bind (Q := fun _ => a.Lent config caps a.previous.extended) Events.refl
    (.bind Events.refl (lent_fault _) fun _ => lent_fault _) fun _ => ?_
  refine .bind Events.refl (reserve_call_outline hidle) fun _ => ?_
  refine .bind Events.refl restart_outline fun _ => .bind Events.refl lent_get fun rt => ?_
  dsimp only
  cases (rt.files.get? (rt.jobs[a.ref]?.elim "" (·.id), .source_before)).bind Entry.content with
  | none =>
    refine .bind (Q := fun _ => a.Lent config caps a.again) Events.refl
      (.modify kept_lent kept_lent fun _ h => h.congr rfl rfl rfl) fun _ => ?_
    refine .bind (Q := fun _ => a.Borrowed config caps) Events.refl
      (.modify kept_lent kept_borrowed fun _ h => ?_) fun _ => .raise kept_borrowed fun _ h => h
    exact (h.update (f := fun job => { job with status := .interrupted }) ⟨rfl, Or.inl ⟨rfl, rfl⟩⟩).borrowed
  | some before =>
    refine .bind Events.refl (lent_fault _) fun _ => ?_
    refine .bind Events.refl (lent_checked _) fun before => ?_
    refine .bind (Q := fun _ => a.Lent config caps a.again) Events.refl
      (.modify kept_lent kept_lent fun _ h => h.congr rfl rfl rfl) fun _ => ?_
    refine .bind Events.refl (lent_fault _) fun _ => .bind Events.refl lent_get fun _ => ?_
    refine .bind Events.refl (lent_erase _ _ _) fun _ => .bind Events.refl (lent_fault _) fun _ => ?_
    exact .ret kept_lent fun _ h => ⟨rfl, h⟩

/-- Putting the job back ends the attempt. -/
theorem put_back_outline (e : Raised) :
    Prog.Outline Events (Staffed config caps none) (a.Borrowed config caps) (do
      Prog.modify fun rt => { rt with reserved := a.before }
      Prog.modify (Runtime.updateJob a.ref fun _ => a.previous)
      Prog.modify (Runtime.putResumed a.role a.node a.prompt fun key jobs => jobs.set key a.ref)
      .raise e : Controller (Nat × Context))
      (fun _ => Staffed config caps none) fun _ => Staffed config caps none := by
  refine .bind (Q := fun _ => a.Borrowed config caps) Events.refl
    (.modify kept_borrowed kept_borrowed fun rt h => ?_) fun _ => ?_
  · rcases h with h | ⟨job, h⟩
    · exact Or.inl ⟨h.staffed.congr rfl rfl rfl, h.idle, h.job⟩
    · exact Or.inr ⟨job, h.congr rfl rfl rfl⟩
  refine .bind (Q := fun _ => a.Borrowed config caps) Events.refl
    (.modify kept_borrowed kept_borrowed fun rt h => ?_) fun _ => ?_
  · rcases h with h | ⟨job, h⟩
    · rw [h.same]
      exact Or.inl h
    · exact (h.update (f := fun _ => a.previous) ⟨rfl, Or.inl ⟨h.group.1, rfl⟩⟩).borrowed
  refine .bind (Q := fun _ => Staffed config caps none) Events.refl
    (.modify kept_borrowed kept_staffed fun rt h => ?_) fun _ => .raise kept_staffed fun _ h => h
  exact (kept_borrowed.inside rt h).congr putResumed_config putResumed_jobs putResumed_sessions

end Attempt

/-! ### Admission -/

section Admission
variable (call : Call)

theorem key_group {job : Job} {role : Role} {node : Option Node} {prompt : String}
    (h : job.key = key_of role node prompt) : role_group job.role = role_group role := by
  unfold Job.key at h
  cases hjob : job.role <;> cases role <;> simp_all [key_of, role_group]

theorem prepare_fresh_outline :
    Prog.Outline Events (Staffed config caps none)
      (fun rt => Staffed config caps none rt ∧ rt.waiting call.key = none)
      (prepare_job C region call.role call.node call.prompt)
      (fun prepared rt => Staffed config caps none rt ∧ Running prepared.1 rt)
      fun _ => Staffed config caps none := by
  have hW : Prog.Stable Events fun rt => rt.waiting call.key = none :=
    fun _ _ h hevents => (congrFun hevents.undisturbed.waiting _).trans h
  refine .bind Events.refl ((require_capacity_outline hW call.role).mono (fun _ h => h) (fun _ _ h => h)
    fun _ _ h => h.1) fun _ => ?_
  refine .bind (Q := fun rt rt' => rt.waiting call.key = none ∧
    Staffed config caps (some (role_group call.role)) rt') Events.refl
    (.get ⟨stable_staffed.and hW, fun _ h => h.1.spend⟩ fun _ _ h hevents =>
      ⟨h.2, stable_staffed _ _ h.1 hevents⟩) fun rt => ?_
  intro rt' h
  have hresumed : rt.resumed call.role call.node call.prompt = none := (resumed_eq ..).trans h.1
  simp only [hresumed]
  exact fresh_job_outline call.role call.node call.prompt rt' h.2

theorem prepare_resumed_outline {a : Attempt} (hrole : a.role = call.role) (hprompt : a.prompt = call.prompt)
    (hidle : a.previous.live = false) (hgroup : role_group a.previous.role = role_group a.role) :
    Prog.Outline Events (Staffed config caps none)
      (fun rt => a.Untouched config caps rt ∧ rt.waiting call.key = some a.ref)
      (prepare_job C region call.role call.node call.prompt)
      (fun prepared rt => prepared.1 = a.ref ∧ a.Lent config caps a.again rt) fun _ => a.Borrowed config caps := by
  have hW : Prog.Stable Events fun rt => a.Untouched config caps rt ∧ rt.waiting call.key = some a.ref :=
    fun _ _ h hevents => ⟨Attempt.stable_untouched _ _ h.1 hevents, hevents.undisturbed.waiting ▸ h.2⟩
  refine .bind Events.refl ((require_capacity_outline hW call.role).mono (fun _ h => ⟨h.1.staffed, h⟩)
    (fun _ _ h => h) fun _ _ h => Or.inl h.2.1) fun _ => ?_
  refine .bind (Q := fun rt rt' => rt.waiting call.key = some a.ref ∧ a.Lent config caps a.previous rt') Events.refl
    (.get ⟨stable_staffed.and hW, fun _ h => h.1.spend⟩ fun rt rt' h hevents => ⟨h.2.2, ?_⟩) fun rt => ?_
  · refine Attempt.stable_lent rt rt' ⟨h.2.1.idle, ⟨hidle, hgroup⟩, ?_, ⟨rfl, Or.inl ⟨hidle, rfl⟩⟩, h.2.1.job⟩ hevents
    rw [h.2.1.same, hrole]
    exact h.1
  intro rt' h
  have hresumed : rt.resumed call.role call.node call.prompt = some a.ref := (resumed_eq ..).trans h.1
  simp only [hresumed]
  have hrole_job := Attempt.resume_role_job_outline hidle rt' h.2
  rw [hrole, hprompt] at hrole_job
  cases hcall : call.node with
  | none =>
    have horchestrator : role_group call.role = .orchestrator := by
      by_contra hne
      simpa [hcall] using call.assigned hne
    simp only [if_pos horchestrator]
    exact hrole_job
  | some node =>
    by_cases horchestrator : role_group call.role = .orchestrator
    · simp only [if_pos horchestrator]
      exact hrole_job
    · simp only [if_neg horchestrator]
      exact hrole ▸ Attempt.resume_node_job_outline hidle node rt' h.2

/-- **Admission keeps the allowances**, at every point of every call. -/
theorem new_job_outline :
    Prog.Outline Events (Staffed config caps none)
      (fun rt => Books origin 0 none rt ∧ Staffed config caps none rt)
      (new_job C region call.role call.node call.prompt)
      (fun _ => Staffed config caps none) fun _ => Staffed config caps none := by
  refine .bind (Q := fun rt rt' => Books origin 0 none rt ∧ Staffed config caps none rt' ∧ Undisturbed rt rt')
    Events.refl (.get ⟨stable_books.and stable_staffed, fun _ h => h.2⟩ fun _ _ h hevents =>
      ⟨h.1, stable_staffed _ _ h.2 hevents, hevents.undisturbed⟩) fun rt => ?_
  rintro rt' ⟨hbooks, hstaffed, hsame⟩
  have hresumed : rt.resumed call.role call.node call.prompt = rt.waiting call.key := resumed_eq ..
  simp only [hresumed]
  cases hwaiting : rt.waiting call.key with
  | none =>
    refine Prog.Outline.handle (E := fun _ => Staffed config caps none)
      (P := fun rt' => Staffed config caps none rt' ∧ rt'.waiting call.key = none) Events.refl ?_
      (fun e => Prog.Outline.raise (e := e) kept_staffed fun _ h => h) rt' ⟨hstaffed, hsame.waiting ▸ hwaiting⟩
    refine .bind Events.refl (prepare_fresh_outline call) fun prepared => ?_
    have hkept : Prog.Kept Events (Staffed config caps none)
        fun rt => Staffed config caps none rt ∧ Running prepared.1 rt :=
      ⟨stable_staffed.and (stable_running _), fun _ h => h.1⟩
    refine .bind Events.refl (.fault hkept fun _ h => h.1) fun _ => ?_
    exact .bind (Q := fun _ => Staffed config caps none) Events.refl
      (.modify hkept kept_staffed fun _ h => h.1.start h.2) fun _ => .ret kept_staffed fun _ h => h
  | some ref =>
    obtain ⟨previous, hjob, hidle, hnot, hkey⟩ := hbooks.waits _ _ (by simp) hwaiting
    let a : Attempt := ⟨call.role, call.node, call.prompt, ref, previous, rt.reserved⟩
    have hprevious : (rt.jobs[·]?) ref = some previous := hjob
    simp only [Option.bind_some, hprevious]
    refine Prog.Outline.handle (E := fun _ => a.Borrowed config caps)
      (P := fun rt' => a.Untouched config caps rt' ∧ rt'.waiting call.key = some ref) Events.refl ?_
      (fun e => Attempt.put_back_outline (a := a) e) rt'
      ⟨⟨hstaffed, hsame.sessions ▸ hnot, (hsame.job _ hnot).trans hjob⟩, hsame.waiting ▸ hwaiting⟩
    refine .bind Events.refl (prepare_resumed_outline call (a := a) rfl rfl hidle (key_group hkey)) fun prepared => ?_
    have hkept : Prog.Kept Events (Staffed config caps none)
        fun rt => prepared.1 = ref ∧ a.Lent config caps a.again rt :=
      ⟨(Prog.stable_const _).and Attempt.stable_lent, fun _ h => h.2.staffed⟩
    refine .bind Events.refl (.fault hkept fun _ h => h.2.borrowed) fun _ => ?_
    refine .bind (Q := fun _ => Staffed config caps none) Events.refl
      (.modify hkept kept_staffed fun rt h => h.2.staffed.start ?_) fun _ => .ret kept_staffed fun _ h => h
    exact ⟨a.again, h.1 ▸ h.2.job, rfl⟩

end Admission

/-! ### Runs -/

section Runs
variable (C region)

theorem finish_job_outline {ref : Nat} (hmem : ref ∈ origin.started) (result : Result) (cancelled : Bool) :
    Prog.Keeps Events (fun rt => Books origin 0 none rt ∧ Staffed config caps none rt)
      (finish_job ref result cancelled) :=
  finish_job_keeps Events.refl settling_staffed (stable_books.and stable_staffed) hmem result cancelled

theorem upheld_staffed : Upheld C region (Staffed config caps none) := by
  refine ⟨settling_staffed, fun origin part rt rt' hbooks h happly => ?_⟩
  cases part with
  | admission call moves =>
    obtain ⟨⟨_, _⟩, hrun, rfl⟩ := Option.map_eq_some_iff.mp happly
    exact (new_job_outline call).triple.ends Events.refl Events.trans Events.of_event ⟨hbooks, h⟩ hrun
  | finish ref result cancelled moves =>
    rw [Section.apply] at happly
    split at happly
    · obtain ⟨⟨_, _⟩, hrun, rfl⟩ := Option.map_eq_some_iff.mp happly
      exact ((finish_job_outline (List.mem_append_right _ ‹_›) result cancelled).triple.ends Events.refl
        Events.trans Events.of_event ⟨hbooks.with, h⟩ hrun).2
    · cases happly
  | event report => exact stable_staffed rt rt' h (Events.of_event report rt rt' happly)
  | submit ref =>
    rw [Section.apply] at happly
    split at happly
    · obtain rfl := Option.some.inj happly
      exact h.congr rfl rfl rfl
    · cases happly
  | collect ref =>
    obtain rfl := Option.some.inj happly
    exact h.congr rfl rfl rfl

/-- The states of a process: between its sections, and inside one. -/
inductive Passes (start : Runtime) : Runtime → Prop where
  | between {actions : List Action} {rt : Runtime} (hrun : run C region actions start = some rt) : Passes start rt
  | admitting {actions : List Action} {rt rt' : Runtime} {call : Call} {moves : List (Prog.Move (Nat × Details))}
      {rest : Controller (Nat × Context)} (hrun : run C region actions start = some rt)
      (hdrive : Prog.drive Runtime.event moves (new_job C region call.role call.node call.prompt, rt) =
        some (rest, rt')) : Passes start rt'
  | finishing {actions : List Action} {rt rt' : Runtime} {ref : Nat} {result : Result} {cancelled : Bool}
      {moves : List (Prog.Move (Nat × Details))} {rest : Controller Unit} (hrun : run C region actions start = some rt)
      (hmem : ref ∈ rt.sessions)
      (hdrive : Prog.drive Runtime.event moves (finish_job ref result cancelled, rt) = some (rest, rt')) :
      Passes start rt'

variable {C region}

theorem Passes.staffed {start : Runtime} (hstart : Start start) (h : Staffed config caps none start)
    (hpasses : Passes C region start rt) : Staffed config caps none rt := by
  have hkept {actions : List Action} {rt : Runtime} (hrun : run C region actions start = some rt) :
      Books ⟨start.Within, []⟩ 0 none rt ∧ Staffed config caps none rt :=
    run_keeps C region (upheld_staffed C region) hstart.books h hrun
  cases hpasses with
  | between hrun => exact (hkept hrun).2
  | admitting hrun hdrive =>
    exact ((new_job_outline _ _ (hkept hrun)).drive Events.refl Events.trans Events.of_event hdrive).inv Events.refl
  | finishing hrun hmem hdrive =>
    exact ((finish_job_outline (List.mem_append_right _ hmem) _ _).drive Events.refl Events.trans Events.of_event
      ⟨(hkept hrun).1.with, (hkept hrun).2⟩ hdrive).2

/-- Nothing runs when a process starts. -/
theorem Start.idle {start : Runtime} (h : Start start) : Idle start := by
  cases h with
  | fresh config dag documents files => exact ⟨rfl, fun _ hjob => by cases hjob⟩
  | resumed durable => exact restore_idle durable

theorem Start.staffed {start : Runtime} (h : Start start) :
    Staffed start.config (fun group => ∀ limit, start.config.limit group = some limit →
      start.counted group ≤ (limit : Int)) none start := by
  obtain ⟨hsessions, hidle⟩ := h.idle
  refine ⟨rfl, fun ref href => ?_, fun job hjob hlive => ?_, fun group hgroup limit hlimit => ?_⟩
  · rw [hsessions] at href
    cases href
  · rw [hidle job hjob] at hlive
    cases hlive
  · rw [margin_none, add_zero]
    exact hgroup limit hlimit

/-- What the allowances promise of a state. -/
structure Allowances (start rt : Runtime) : Prop where
  /-- A group that started within its limit is within it, also with what it used alone. -/
  limits : ∀ group limit, start.config.limit group = some limit →
    (session_metrics start.jobs start.config group).used +
      (session_metrics start.jobs start.config group).reserved ≤ (limit : Int) →
    (session_metrics rt.jobs rt.config group).limit = some limit ∧
      (session_metrics rt.jobs rt.config group).used +
        (session_metrics rt.jobs rt.config group).reserved ≤ (limit : Int) ∧
      (session_metrics rt.jobs rt.config group).used ≤ (limit : Int)
  /-- A started session runs until it is settled. -/
  running : ∀ ref ∈ rt.sessions, ∃ job, rt.jobs[ref]? = some job ∧ (job.accounted = true ∨ job.live = true)
  /-- A running job contributes one session more than it had used before. -/
  contribution : ∀ job ∈ rt.jobs, job.live = true →
    (job.api_calls : Int) + max 0 (job.reserved_calls - max 0 ((job.api_calls : Int) - job.previous_api_calls)) =
      job.previous_api_calls + 1

/-- **The role allowances**, at every point of every process. -/
theorem role_limits_kept {start : Runtime} (hstart : Start start) (hpasses : Passes C region start rt) :
    Allowances start rt := by
  have hstaffed := hpasses.staffed hstart hstart.staffed
  refine ⟨fun group limit hlimit hrespected => ?_, hstaffed.seats, fun job hjob hlive => ?_⟩
  · rw [metrics_counted] at hrespected
    have hcapped := hstaffed.capped group (fun limit' hlimit' => by
      cases hlimit'.symm.trans hlimit
      exact hrespected) limit hlimit
    have htotal := metrics_counted rt rt.config group
    have hnonneg := reserved_nonneg rt.jobs rt.config group
    rw [margin_none] at hcapped
    refine ⟨?_, by omega, by omega⟩
    show rt.config.limit group = some limit
    rw [hstaffed.same, hlimit]
  · have hcounts := counts_single hlive (hstaffed.single job hjob hlive)
    rwa [Job.counts, if_pos hlive] at hcounts

end Runs

/-- The only planning session of a campaign has reported its call and is still running. -/
theorem survey_within : ∃ rt,
    run .ascii (fun text _ => text) (surveyRun.take 2) { config := { orchestrator_sessions := some 1 } } = some rt ∧
      rt.jobs.map Job.live = [true] ∧
      Allowances { config := { orchestrator_sessions := some 1 } } rt := by
  have hend : (run .ascii (fun text _ => text) (surveyRun.take 2)
      { config := { orchestrator_sessions := some 1 } }).map (·.jobs.map Job.live) = some [true] := by decide +kernel
  obtain ⟨rt, hrun, hlive⟩ := Option.map_eq_some_iff.mp hend
  exact ⟨rt, hrun, hlive, role_limits_kept (.fresh _ {} .empty .empty) (.between hrun)⟩

end LeanFlow.Jobs
