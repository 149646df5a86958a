import LeanFlow.Jobs.Books

/-! The books a resumed run starts with.

Nothing is reserved and no session runs; what every job used is consumed, also by
jobs that were interrupted before they were settled. -/
namespace LeanFlow.Jobs
open General Goals Source

variable {origin : Origin} {rt : Runtime}

/-! ### One job -/

/-- What a resume does with one job: it is not live afterwards, and perhaps listed under its key. -/
structure Restored (ref : Nat) (job : Job) (rt rt' : Runtime) : Prop where
  jobs : ∃ job' : Job, rt'.jobs = rt.jobs.modify ref (fun _ => job') ∧ job'.live = false ∧ job'.key = job.key
  waiting : rt'.waiting = rt.waiting ∨
    ∀ key, rt'.waiting key = if key = job.key then some ref else rt.waiting key
  same : rt'.reserved = rt.reserved ∧ rt'.sessions = rt.sessions ∧ rt'.pending = rt.pending

theorem recount_eq (ledger : Option Entry) (job : Job) :
    ∃ calls input output, job.recount ledger =
      { job with api_calls := calls, input_tokens := input, output_tokens := output } := by
  unfold Job.recount
  split
  · exact ⟨_, _, _, rfl⟩
  · split
    · exact ⟨job.api_calls, job.input_tokens, job.output_tokens, rfl⟩
    · exact ⟨_, job.input_tokens, job.output_tokens, rfl⟩

theorem restoreJob_restored {ref : Nat} {job : Job} (hjob : rt.jobs[ref]? = some job) :
    Restored ref job rt (rt.restoreJob ref job) := by
  unfold Runtime.restoreJob
  split
  · obtain ⟨calls, input, output, hcalls⟩ := recount_eq (rt.files.get? (job.id, .request_count)) job
    simp only [hcalls]
    split
    · exact ⟨⟨_, rfl, rfl, rfl⟩, Or.inl rfl, rfl, rfl, rfl⟩
    split
    · exact ⟨⟨_, rfl, rfl, rfl⟩, Or.inl rfl, rfl, rfl, rfl⟩
    split
    · rename_i hrole
      refine ⟨⟨_, rfl, rfl, rfl⟩, Or.inr fun key => ?_, rfl, rfl, rfl⟩
      cases key <;> simp [Runtime.waiting, Job.key, hrole, Dict.get?_set, Runtime.updateJob]
    split
    · rename_i hrole
      split
      · refine ⟨⟨_, rfl, rfl, rfl⟩, Or.inr fun key => ?_, rfl, rfl, rfl⟩
        cases key <;> simp [Runtime.waiting, Job.key, hrole, Dict.get?_set, Runtime.updateJob]
      · exact ⟨⟨_, rfl, rfl, rfl⟩, Or.inl rfl, rfl, rfl, rfl⟩
    · rename_i hprover hnegation
      refine ⟨⟨_, rfl, rfl, rfl⟩, Or.inr fun key => ?_, rfl, rfl, rfl⟩
      cases hrole : job.role <;> cases key <;>
        simp_all [Runtime.waiting, Job.key, Dict.get?_set, Runtime.updateJob]
  · rename_i hfinished
    have hlive : job.live = false := by
      cases hstatus : job.status <;> simp_all [JobStatus.unfinished, Job.live]
    have hsame : rt.jobs.modify ref (fun _ => job) = rt.jobs :=
      modify_eq_self fun a ha => Option.some.inj (hjob.symm.trans ha)
    exact ⟨⟨job, hsame.symm, hlive, rfl⟩, Or.inl rfl, rfl, rfl, rfl⟩

/-! ### All jobs -/

/-- The jobs up to `done` are restored. -/
structure Parked (done : Nat) (rt : Runtime) : Prop where
  idle : ∀ ref < done, ∀ job, rt.jobs[ref]? = some job → job.live = false
  waits : ∀ key ref, rt.waiting key = some ref →
    ∃ job, rt.jobs[ref]? = some job ∧ job.live = false ∧ job.key = key
  reserved : rt.reserved = 0
  sessions : rt.sessions = []
  pending : rt.pending = []

theorem Parked.restored {ref : Nat} {job : Job} {rt' : Runtime} (h : Parked ref rt)
    (hjob : rt.jobs[ref]? = some job) (hrestored : Restored ref job rt rt') : Parked (ref + 1) rt' := by
  obtain ⟨⟨job', hjobs, hlive, hkey⟩, hwaiting, hreserved, hsessions, hpending⟩ := hrestored
  have hat (n : Nat) : rt'.jobs[n]? = if ref = n then some job' else rt.jobs[n]? := by
    rw [hjobs, List.getElem?_modify]
    split
    · rename_i hn
      subst hn
      rw [hjob]
      rfl
    · cases rt.jobs[n]? <;> rfl
  have hold (key : Key) (n : Nat) (hn : rt.waiting key = some n) :
      ∃ job, rt'.jobs[n]? = some job ∧ job.live = false ∧ job.key = key := by
    obtain ⟨a, ha, halive, hakey⟩ := h.waits key n hn
    rw [hat]
    split
    · rename_i href
      subst href
      cases ha.symm.trans hjob
      exact ⟨job', rfl, hlive, hkey.trans hakey⟩
    · exact ⟨a, ha, halive, hakey⟩
  refine ⟨fun n hn a ha => ?_, fun key n hn => ?_, hreserved.trans h.reserved, hsessions.trans h.sessions,
    hpending.trans h.pending⟩
  · rw [hat] at ha
    split at ha
    · exact Option.some.inj ha ▸ hlive
    · exact h.idle n (by omega) a ha
  · rcases hwaiting with hwaiting | hwaiting
    · exact hold key n (hwaiting ▸ hn)
    · rw [hwaiting] at hn
      split at hn
      · obtain rfl := Option.some.inj hn
        exact ⟨job', by rw [hat, if_pos rfl], hlive, hkey.trans (Eq.symm ‹_›)⟩
      · exact hold key n hn

theorem restore_jobs (jobs : List Job) {done : Nat} (h : Parked done rt)
    (hjobs : ∀ n, rt.jobs[done + n]? = jobs[n]?) :
    ∃ all, (∀ n, all ≤ n → ((jobs.zipIdx done).foldl
        (fun rt entry => rt.restoreJob entry.2 entry.1) rt).jobs[n]? = none) ∧
      Parked all ((jobs.zipIdx done).foldl (fun rt entry => rt.restoreJob entry.2 entry.1) rt) := by
  induction jobs generalizing done rt with
  | nil =>
    refine ⟨done, fun n hn => ?_, h⟩
    have hnone := hjobs (n - done)
    rwa [show done + (n - done) = n by omega] at hnone
  | cons job jobs ih =>
    have hjob : rt.jobs[done]? = some job := hjobs 0
    have hrestored := restoreJob_restored hjob
    refine ih (h.restored hjob hrestored) fun n => ?_
    obtain ⟨job', hmodify, -⟩ := hrestored.jobs
    rw [hmodify, List.getElem?_modify_ne _ _ (by omega), Nat.add_assoc, Nat.add_comm 1, hjobs]
    rfl

/-- The books of restored jobs, once what they used is charged. -/
theorem Parked.books {all : Nat} (h : Parked all rt) (hall : ∀ n, all ≤ n → rt.jobs[n]? = none)
    (hstarted : origin.started = [])
    (hwithin : origin.bounded → ∀ limit, rt.config.agent_calls = some limit →
      (rt.jobs.map fun job => (job.api_calls : Int)).sum ≤ limit) :
    Books origin 0 none rt.charged := by
  have hidle (job : Job) (hmem : job ∈ rt.jobs) : job.live = false := by
    obtain ⟨n, hn⟩ := List.mem_iff_getElem?.mp hmem
    refine h.idle n ?_ job hn
    by_contra hle
    rw [hall n (by omega)] at hn
    cases hn
  have hsessions : rt.charged.sessions = [] := h.sessions
  have hpending : rt.charged.pending = [] := h.pending
  refine ⟨fun job hmem hlive => ?_, ?_, ?_, fun hb limit hlimit => ?_, fun key ref _ href => ?_, ?_, ?_, ?_⟩
  · rw [hidle job hmem] at hlive
    cases hlive
  · show rt.reserved = (rt.jobs.map Job.holds).sum + 0
    rw [h.reserved, List.map_congr_left fun job hmem => holds_idle (hidle job hmem)]
    simp
  · exact congrArg List.sum (List.map_congr_left fun job hmem => (charge_idle (hidle job hmem)).symm)
  · show _ + rt.reserved ≤ _
    rw [h.reserved, add_zero]
    exact hwithin hb limit hlimit
  · obtain ⟨job, hjob, hlive, hkey⟩ := h.waits key ref (by cases key <;> exact href)
    exact ⟨job, hjob, hlive, by rw [hsessions]; exact List.not_mem_nil, hkey⟩
  · rw [hsessions]
    exact fun ref href => absurd href List.not_mem_nil
  · rw [hpending]
    exact fun ref href => absurd href List.not_mem_nil
  · rw [hstarted]
    exact fun ref href => absurd href List.not_mem_nil

theorem preferCandidate_books (h : Books origin 0 none rt) (node : Node) :
    Books origin 0 none (rt.preferCandidate node) := by
  unfold Runtime.preferCandidate
  split
  · cases hwaiting : rt.resume_jobs.get? node.id with
    | none => exact h
    | some ref =>
      obtain ⟨job, hjob, hlive, hnot, hkey⟩ := h.waits (.prover node.id) ref (by simp) hwaiting
      have hassign := h.assign_idle (f := fun job => { job with status := .interrupted }) hjob hlive hnot rfl rfl rfl
      refine ⟨hassign.sound, hassign.reserved, hassign.consumed, hassign.within, fun key n hkey hn => ?_,
        hassign.sessions, hassign.pending, hassign.started⟩
      refine hassign.waits key n hkey ?_
      cases key with
      | prover name =>
        simp only [Runtime.waiting, Dict.get?_erase] at hn
        split at hn
        · cases hn
        · exact hn
      | negation name => exact hn
      | role role purpose => exact hn
  · exact h

theorem preferCandidate_counters (rt : Runtime) (node : Node) : (rt.preferCandidate node).config = rt.config ∧
    (rt.preferCandidate node).consumed = rt.consumed ∧ (rt.preferCandidate node).reserved = rt.reserved := by
  unfold Runtime.preferCandidate
  split
  · cases rt.resume_jobs.get? node.id <;> exact ⟨rfl, rfl, rfl⟩
  · exact ⟨rfl, rfl, rfl⟩

theorem preferCandidates_books (nodes : List Node) (h : Books origin 0 none rt) :
    Books origin 0 none (nodes.foldl Runtime.preferCandidate rt) := by
  induction nodes generalizing rt with
  | nil => exact h
  | cons node nodes ih => exact ih (preferCandidate_books h node)

theorem preferCandidates_counters (rt : Runtime) (nodes : List Node) :
    (nodes.foldl Runtime.preferCandidate rt).config = rt.config ∧
      (nodes.foldl Runtime.preferCandidate rt).consumed = rt.consumed ∧
      (nodes.foldl Runtime.preferCandidate rt).reserved = rt.reserved := by
  induction nodes generalizing rt with
  | nil => exact ⟨rfl, rfl, rfl⟩
  | cons node nodes ih =>
    obtain ⟨hconfig, hconsumed, hreserved⟩ := preferCandidate_counters rt node
    obtain ⟨h1, h2, h3⟩ := ih (rt.preferCandidate node)
    exact ⟨h1.trans hconfig, h2.trans hconsumed, h3.trans hreserved⟩

/-- What the campaign has used and reserved is within its limit. -/
def Runtime.Within (rt : Runtime) : Prop :=
  ∀ limit, rt.config.agent_calls = some limit → rt.consumed + rt.reserved ≤ limit

theorem restoreJobs_parked (durable : Runtime) :
    ∃ all, (∀ n, all ≤ n → durable.restoreJobs.jobs[n]? = none) ∧ Parked all durable.restoreJobs := by
  have hblank : Parked 0 durable.blank := by
    refine ⟨fun n hn => absurd hn (Nat.not_lt_zero n), fun key ref href => ?_, rfl, rfl, rfl⟩
    cases key <;> cases href
  refine restore_jobs durable.jobs hblank fun n => ?_
  rw [Nat.zero_add]
  rfl

/-- **A resumed run starts with right books.** -/
theorem restore_books (durable : Runtime) : Books ⟨durable.restore.Within, []⟩ 0 none durable.restore := by
  obtain ⟨all, hall, hparked⟩ := restoreJobs_parked durable
  refine preferCandidates_books _ (hparked.books hall rfl fun hwithin limit hlimit => ?_)
  obtain ⟨hconfig, hconsumed, hreserved⟩ :=
    preferCandidates_counters durable.restoreJobs.charged durable.dag.nodes
  have hcharged := hwithin limit ((congrArg _ hconfig).trans hlimit)
  have hzero : durable.restoreJobs.charged.reserved = 0 := hparked.reserved
  rw [Runtime.restore, hconsumed, hreserved, hzero, add_zero] at hcharged
  exact hcharged

/-! ### Nothing runs -/

/-- No session is started and no job runs. -/
structure Idle (rt : Runtime) : Prop where
  sessions : rt.sessions = []
  jobs : ∀ job ∈ rt.jobs, job.live = false

theorem preferCandidate_idle (h : Idle rt) (node : Node) : Idle (rt.preferCandidate node) := by
  unfold Runtime.preferCandidate
  split
  · cases rt.resume_jobs.get? node.id with
    | none => exact h
    | some ref =>
      refine ⟨h.sessions, fun job hjob => ?_⟩
      rcases mem_modify hjob with hjob | ⟨a, -, rfl⟩
      · exact h.jobs job hjob
      · rfl
  · exact h

theorem restore_idle (durable : Runtime) : Idle durable.restore := by
  obtain ⟨all, hall, hparked⟩ := restoreJobs_parked durable
  have hstart : Idle durable.restoreJobs.charged := by
    refine ⟨hparked.sessions, fun job hjob => ?_⟩
    obtain ⟨n, hn⟩ := List.mem_iff_getElem?.mp hjob
    refine hparked.idle n ?_ job hn
    by_contra hle
    cases (hall n (by omega)).symm.trans hn
  have hnodes (nodes : List Node) {rt : Runtime} (h : Idle rt) : Idle (nodes.foldl Runtime.preferCandidate rt) := by
    induction nodes generalizing rt with
    | nil => exact h
    | cons node nodes ih => exact ih (preferCandidate_idle h node)
  exact hnodes durable.dag.nodes hstart

end LeanFlow.Jobs
