import LeanFlow.Jobs.Books

/-! Admitting a job keeps the books, however far it gets.

A fresh job attaches the call it reserved when it is published. A resumed job is
changed in place before its call is certain, so `Undo` says at every step that
putting everything back would leave the books right. -/
namespace LeanFlow.Jobs
open General Goals Source

variable {C : CharClass} {region : Text → String → Text} {origin : Origin} {exempt : Option Key}

/-! ### Reserving -/

/-- Facts that survive a reservation. -/
structure Frame (F : Runtime → Prop) : Prop where
  stable : Prog.Stable Events F
  reserved : ∀ rt n, F rt → F { rt with reserved := n }

theorem reserve_triple {F : Runtime → Prop} (hF : Frame F) :
    Prog.Triple Events (fun rt => Books origin 0 exempt rt ∧ F rt) (reserve 1)
      (fun n rt => 0 < n ∧ Books origin n exempt rt ∧ F rt)
      (fun _ rt => Books origin 0 exempt rt ∧ F rt) := by
  have hstable : Prog.Stable Events fun rt => Books origin 0 exempt rt ∧ F rt := stable_books.and hF.stable
  have hfault (e : Raised) : Prog.Triple Events (fun rt => Books origin 0 exempt rt ∧ F rt)
      (Prog.fault e) (fun _ rt => Books origin 0 exempt rt ∧ F rt)
      (fun _ rt => Books origin 0 exempt rt ∧ F rt) := .fault hstable fun _ h => h
  refine .bind Events.refl (.bind Events.refl (hfault _) fun _ => hfault _) fun _ => ?_
  refine .bind Events.refl (hfault _) fun _ => ?_
  refine .bind (Q := fun rt rt' => (Books origin 0 exempt rt' ∧ F rt') ∧ Undisturbed rt rt') Events.refl
    (.get hstable fun rt rt' h hevents => ⟨hstable rt rt' h hevents, hevents.undisturbed⟩) fun rt => ?_
  have hstable' : Prog.Stable Events
      fun rt' => (Books origin 0 exempt rt' ∧ F rt') ∧ Undisturbed rt rt' :=
    hstable.and (stable_undisturbed rt)
  refine .ite (fun _ => .raise hstable' fun _ h => h.1) fun hremaining => ?_
  refine .ite (fun _ => .raise hstable' fun _ h => h.1) fun _ => ?_
  refine .ite (fun _ => .raise hstable' fun _ h => h.1) fun _ => ?_
  have hpositive (limit : Nat) (hlimit : rt.config.agent_calls = some limit) :
      0 < (limit : Int) - rt.consumed - rt.reserved := by
    rw [hlimit] at hremaining
    have hle : ¬ (limit : Int) - rt.consumed - rt.reserved ≤ 0 := by simpa using hremaining
    omega
  generalize hn : (rt.config.agent_calls.map fun (limit : Nat) =>
    (limit : Int) - rt.consumed - rt.reserved).elim 1 (min 1) = n
  have hnle (limit : Nat) (hlimit : rt.config.agent_calls = some limit) :
      n ≤ (limit : Int) - rt.consumed - rt.reserved := by
    rw [hlimit] at hn
    change min 1 ((limit : Int) - rt.consumed - rt.reserved) = n at hn
    omega
  have hnpos : 0 < n := by
    cases hlimit : rt.config.agent_calls with
    | none =>
      rw [hlimit] at hn
      change 1 = n at hn
      omega
    | some limit =>
      have hlt := hpositive limit hlimit
      rw [hlimit] at hn
      change min 1 ((limit : Int) - rt.consumed - rt.reserved) = n at hn
      omega
  have hstable'' : Prog.Stable Events fun rt' => 0 < n ∧ Books origin n exempt rt' ∧ F rt' :=
    (Prog.stable_const _).and (stable_books.and hF.stable)
  refine .bind Events.refl (.modify (Q := fun _ rt' => 0 < n ∧ Books origin n exempt rt' ∧ F rt')
    hstable' hstable'' ?_) fun _ => .ret hstable'' fun _ h => h
  rintro rt' ⟨⟨hbooks, hframe⟩, hsame⟩
  refine ⟨hnpos, ?_, hF.reserved _ _ hframe⟩
  have hreserve := hbooks.reserve n fun limit hlimit _ => ?_
  · rwa [zero_add] at hreserve
  · have := hnle limit (hsame.config ▸ hlimit)
    rw [hsame.consumed, hsame.reserved]
    omega

/-! ### Fresh jobs -/

/-- What neither session events nor the files of a workspace can change. -/
structure Unfiled (P : Runtime → Prop) : Prop where
  stable : Prog.Stable Events P
  files : ∀ rt files before, P rt → P { rt with files := files, scratch_before := before }

theorem unfiled_books {held : Int} : Unfiled (Books origin held exempt) :=
  ⟨stable_books, fun _ _ _ h => h.congr rfl rfl rfl rfl (fun key => by cases key <;> rfl) rfl rfl⟩

section Fresh
variable {held : Int} {P : Runtime → Prop}

theorem keeps_files (hP : Unfiled P) (f : Runtime → Runtime) (h : ∀ rt, ∃ files before,
    f rt = { rt with files := files, scratch_before := before }) :
    Prog.Keeps Events P (Prog.modify f : Controller Unit) :=
  .modify hP.stable fun rt hrt => by
    obtain ⟨files, before, hf⟩ := h rt
    rw [hf]
    exact hP.files rt files before hrt

theorem keeps_write_source (hP : Unfiled P) (path : String × JobFile) (text : Text) :
    Prog.Keeps Events P (write_source path text) :=
  .bind Events.refl (.fault hP.stable _) fun _ => keeps_files hP _ fun rt => ⟨_, rt.scratch_before, rfl⟩

theorem keeps_checked (hP : Unfiled P) {α : Type} (result : Except ValueError α) :
    Prog.Keeps Events P (checked result) := .ofExcept hP.stable _

theorem keeps_carry_work (hP : Unfiled P) (id : String) (document : SourceDocument) (node : Node)
    (previous : Option Job) : Prog.Keeps Events P (carry_work C id document node previous) := by
  cases previous with
  | none => exact .ret hP.stable _
  | some previous =>
    refine .bind Events.refl ?_ fun _ => ?_
    · refine .bind Events.refl (.get hP.stable) fun rt => ?_
      cases prior_work rt previous with
      | none => exact .ret hP.stable _
      | some work =>
        refine .bind Events.refl (.fault hP.stable _) fun _ => ?_
        refine .bind Events.refl (keeps_checked hP _) fun work => ?_
        refine .bind Events.refl (keeps_checked hP _) fun proofs => ?_
        cases proofs with
        | none => exact .ret hP.stable _
        | some proofs =>
          refine .ite (.bind Events.refl (keeps_checked hP _) fun _ => keeps_write_source hP _ _) ?_
          exact .ret hP.stable _
    · refine .bind Events.refl (.get hP.stable) fun rt => ?_
      cases (rt.files.get? (previous.id, .plan)).bind Entry.regular with
      | none => exact .ret hP.stable _
      | some plan =>
        refine .bind Events.refl (.fault hP.stable _) fun _ => ?_
        exact .bind Events.refl (keeps_checked hP _) fun plan => keeps_write_source hP _ _

theorem keeps_fill_workspace (hP : Unfiled P) (id : String) (node : Node) :
    Prog.Keeps Events P (fill_workspace C region id node) := by
  refine .bind Events.refl (.get hP.stable) fun rt => ?_
  cases rt.documents.get? node.file with
  | none => exact .raise hP.stable _
  | some document =>
    refine .bind Events.refl (keeps_checked hP _) fun before => ?_
    refine .bind Events.refl (keeps_write_source hP _ _) fun _ => ?_
    refine .bind Events.refl (keeps_files hP _ fun rt => ⟨rt.files, _, rfl⟩) fun _ => ?_
    refine .bind Events.refl (keeps_write_source hP _ _) fun _ => ?_
    refine .bind Events.refl (keeps_checked hP _) fun spans => ?_
    refine .bind Events.refl (keeps_checked hP _) fun positions => ?_
    refine .bind Events.refl (.get hP.stable) fun rt => ?_
    refine .bind Events.refl (keeps_carry_work hP _ _ _ _) fun _ => ?_
    exact .bind Events.refl (.get hP.stable) fun rt => .ret hP.stable _

theorem keeps_assign_workspace (hP : Unfiled P) (id : String) (node : Option Node) :
    Prog.Keeps Events P (assign_workspace C region id node) := by
  cases node with
  | none => exact .ret hP.stable _
  | some node => exact keeps_fill_workspace hP _ _

/-- A job is built without anyone noticing. -/
theorem build_job_outline {I : Runtime → Prop} (hP : Unfiled P) (hI : ∀ rt, P rt → I rt) (id : String)
    (role : Role) (node : Option Node) (prompt : String) (budget : Int) :
    Prog.Outline Events I P (build_job C region id role node prompt budget)
      (fun prepared rt => (prepared.1.Fresh budget ∧ prepared.1.role = role) ∧ P rt) (fun _ => P) := by
  refine .bind Events.refl ((Prog.Keeps.fault hP.stable _).outline hI) fun _ => ?_
  refine .bind Events.refl ((keeps_assign_workspace hP _ _).outline hI) fun context => ?_
  refine .bind Events.refl ((Prog.Keeps.fault hP.stable _).outline hI) fun _ => ?_
  refine .bind Events.refl ((keeps_files hP _ fun rt => ⟨_, rt.scratch_before, rfl⟩).outline hI) fun _ => ?_
  exact .ret ⟨hP.stable, hI⟩ fun rt h => ⟨⟨⟨rfl, rfl, rfl, rfl, rfl⟩, rfl⟩, h⟩

theorem build_job_triple (id : String) (role : Role) (node : Option Node) (prompt : String) (budget : Int) :
    Prog.Triple Events (Books origin held exempt) (build_job C region id role node prompt budget)
      (fun prepared rt => prepared.1.Fresh budget ∧ Books origin held exempt rt)
      (fun _ => Books origin held exempt) :=
  Prog.Triple.mono (build_job_outline unfiled_books (fun _ _ => trivial) id role node prompt budget)
    (fun _ h => h) (fun _ _ h => ⟨h.1.1, h.2⟩) fun _ _ h => h

/-- A fresh job takes one call, or the call is given back. -/
theorem fresh_job_triple (role : Role) (node : Option Node) (prompt : String) :
    Prog.Triple Events (Books origin 0 none) (fresh_job C region role node prompt)
      (fun prepared rt => Books origin 0 none rt ∧ Started prepared.1 rt)
      (fun _ => Books origin 0 none) := by
  have hframe : Frame fun _ => True := ⟨Prog.stable_const _, fun _ _ h => h⟩
  refine .bind (Q := fun n rt => 0 < n ∧ Books origin n none rt) Events.refl
    ((reserve_triple hframe).mono (fun rt h => ⟨h, trivial⟩) (fun n rt h => ⟨h.1, h.2.1⟩) fun e rt h => h.1)
    fun budget => ?_
  have hstable : Prog.Stable Events fun rt => 0 < budget ∧ Books origin budget none rt :=
    (Prog.stable_const _).and stable_books
  refine .bind (Q := fun _ rt => 0 < budget ∧ Books origin budget none rt) Events.refl
    (.get hstable fun _ _ h hevents => hstable _ _ h hevents) fun rt => ?_
  have hrelease (rt : Runtime) (h : 0 < budget ∧ Books origin budget none rt) :
      Books origin 0 none { rt with reserved := rt.reserved - budget } := by
    have := h.2.release budget (by omega)
    rwa [sub_self] at this
  refine .bind (Q := fun _ rt => 0 < budget ∧ Books origin budget none rt) Events.refl ?_ fun _ => ?_
  · refine .handle Events.refl (Prog.Keeps.triple (.fault hstable _)) fun e => ?_
    exact .bind (Q := fun _ => Books origin 0 none) Events.refl (.modify hstable stable_books hrelease)
      fun _ => .raise stable_books fun _ h => h
  refine .bind (Q := fun prepared rt => prepared.1.Fresh budget ∧ 0 < budget ∧ Books origin budget none rt)
    Events.refl ?_ fun prepared => ?_
  · refine .handle (E := fun _ rt => 0 < budget ∧ Books origin budget none rt) Events.refl ?_ fun e => ?_
    · intro rt h
      exact (build_job_triple _ role node prompt
        budget rt h.2).mono (fun prepared rt hQ => ⟨hQ.1, h.1, hQ.2⟩) fun e rt hE => ⟨h.1, hE⟩
    · refine .bind (Q := fun _ => Books origin 0 none) Events.refl (.modify hstable stable_books hrelease)
        fun _ => ?_
      refine .bind (Q := fun _ => Books origin 0 none) Events.refl
        (Prog.Keeps.triple (keeps_files unfiled_books _ fun rt => ⟨_, _, rfl⟩)) fun _ => ?_
      refine .bind (Q := fun _ => Books origin 0 none) Events.refl (Prog.Keeps.triple (.fault stable_books _))
        fun _ => ?_
      exact .raise stable_books fun rt h => h
  obtain ⟨job, context⟩ := prepared
  have hstable' : Prog.Stable Events fun rt => job.Fresh budget ∧ 0 < budget ∧ Books origin budget none rt :=
    (Prog.stable_const _).and hstable
  refine .bind (Q := fun before rt => (job.Fresh budget ∧ 0 < budget ∧ Books origin budget none rt) ∧
    Undisturbed before rt) Events.refl
    (.get hstable' fun _ _ h hevents => ⟨hstable' _ _ h hevents, hevents.undisturbed⟩) fun before => ?_
  have hstarted : Prog.Stable Events fun rt => Books origin 0 none rt ∧ Started before.jobs.length rt :=
    stable_books.and (stable_started _)
  refine .bind (Q := fun _ rt => Books origin 0 none rt ∧ Started before.jobs.length rt) Events.refl
    (.modify (hstable'.and (stable_undisturbed before)) hstarted ?_) fun _ => ?_
  · rintro rt ⟨⟨hfresh, hpositive, hbooks⟩, hsame⟩
    rw [← hsame.length]
    exact hbooks.append hpositive hfresh
  · exact .bind (Q := fun _ rt => Books origin 0 none rt ∧ Started before.jobs.length rt) Events.refl
      (.fault hstarted fun _ h => h.1) fun _ => .ret hstarted fun _ h => h

end Fresh

/-! ### Resumed jobs -/

/-- What a call that resumes a job has to put back when it fails. -/
structure Attempt where
  role : Role
  node : Option Node
  prompt : String
  ref : Nat
  previous : Job
  before : Int

namespace Attempt
variable (a : Attempt)

def key : Key := key_of a.role a.node a.prompt

def rollback (rt : Runtime) : Runtime :=
  Runtime.putResumed a.role a.node a.prompt (fun key jobs => jobs.set key a.ref)
    (Runtime.updateJob a.ref (fun _ => a.previous) { rt with reserved := a.before })

@[simp] theorem rollback_config (rt : Runtime) : (a.rollback rt).config = rt.config := putResumed_config

@[simp] theorem rollback_jobs (rt : Runtime) :
    (a.rollback rt).jobs = rt.jobs.modify a.ref fun _ => a.previous := putResumed_jobs

@[simp] theorem rollback_reserved (rt : Runtime) : (a.rollback rt).reserved = a.before := putResumed_reserved

@[simp] theorem rollback_consumed (rt : Runtime) : (a.rollback rt).consumed = rt.consumed :=
  putResumed_consumed

@[simp] theorem rollback_sessions (rt : Runtime) : (a.rollback rt).sessions = rt.sessions :=
  putResumed_sessions

@[simp] theorem rollback_pending (rt : Runtime) : (a.rollback rt).pending = rt.pending := putResumed_pending

theorem rollback_waiting (rt : Runtime) (key : Key) :
    (a.rollback rt).waiting key = if key = a.key then some a.ref else rt.waiting key := waiting_set ..

/-- The books are right once the job is put back, and no session runs it. -/
structure Undo (origin : Origin) (rt : Runtime) : Prop where
  idle : a.ref ∉ rt.sessions
  books : Books origin 0 none (a.rollback rt)

variable {a} {rt rt' : Runtime} {job : Job} {n : Int}

/-- Putting back overwrites the job, the reservation and the journal entry. -/
theorem Undo.congr (h : a.Undo origin rt) (hconfig : rt'.config = rt.config)
    (hconsumed : rt'.consumed = rt.consumed) (hsessions : rt'.sessions = rt.sessions)
    (hpending : rt'.pending = rt.pending)
    (hjobs : rt'.jobs.modify a.ref (fun _ => a.previous) = rt.jobs.modify a.ref fun _ => a.previous)
    (hwaiting : ∀ key, key ≠ a.key → rt'.waiting key = rt.waiting key) : a.Undo origin rt' := by
  refine ⟨hsessions.symm ▸ h.idle, h.books.congr ?_ ?_ ?_ ?_ (fun key => ?_) ?_ ?_⟩
  · rw [rollback_config, rollback_config, hconfig]
  · rw [rollback_jobs, rollback_jobs, hjobs]
  · rw [rollback_reserved, rollback_reserved]
  · rw [rollback_consumed, rollback_consumed, hconsumed]
  · rw [rollback_waiting, rollback_waiting]
    split
    · rfl
    · exact hwaiting key ‹_›
  · rw [rollback_sessions, rollback_sessions, hsessions]
  · rw [rollback_pending, rollback_pending, hpending]

/-- Changing the job that is put back is undone. -/
theorem Undo.update (h : a.Undo origin rt) (f : Job → Job) : a.Undo origin (rt.updateJob a.ref f) :=
  h.congr rfl rfl rfl rfl (List.modify_modify_eq ..) fun key _ => by cases key <;> rfl

theorem Undo.reserved (h : a.Undo origin rt) (n : Int) : a.Undo origin { rt with reserved := n } :=
  h.congr rfl rfl rfl rfl rfl fun key _ => by cases key <;> rfl

/-- Taking the job out of its journal is undone. -/
theorem Undo.erase (h : a.Undo origin rt) :
    a.Undo origin (rt.putResumed a.role a.node a.prompt fun key jobs => jobs.erase key) :=
  h.congr putResumed_config putResumed_consumed putResumed_sessions putResumed_pending
    (by rw [putResumed_jobs]) fun key hkey => by rw [waiting_erase, if_neg (show ¬ key = key_of _ _ _ from hkey)]

theorem rollback_update {ref : Nat} (hne : ref ≠ a.ref) (f : Job → Job) (rt : Runtime) :
    a.rollback (rt.updateJob ref f) = (a.rollback rt).updateJob ref f := by
  have hjobs := List.modify_modify_ne (fun _ => a.previous) f rt.jobs hne.symm
  unfold rollback
  cases a.role <;> simp [Runtime.putResumed, Runtime.updateJob, role_group, hjobs]

theorem stable_undo : Prog.Stable Events (a.Undo origin) :=
  stable_of_event fun event rt rt' h hevent => by
    obtain ⟨hmem, rfl⟩ := event_eq hevent
    refine ⟨h.idle, Books.event h.books (?_ : (a.rollback rt).event event = _)⟩
    rw [rollback_update fun heq => h.idle (heq ▸ hmem), Runtime.event, rollback_sessions, if_pos hmem]

/-- The job that is put back is idle, and it is the one the call names. -/
theorem Undo.previous (h : a.Undo origin rt) : a.previous.live = false ∧ a.previous.key = a.key := by
  obtain ⟨job, hjob, hidle, -, hkey⟩ := h.books.waits a.key a.ref (by simp)
    (by rw [rollback_waiting, if_pos rfl])
  rw [rollback_jobs, List.getElem?_modify_eq] at hjob
  obtain ⟨-, -, rfl⟩ := Option.map_eq_some_iff.mp hjob
  exact ⟨hidle, hkey⟩

/-- The way to a resumed job: what is held, and the job so far. -/
structure Held (a : Attempt) (origin : Origin) (held : Int) (exempt : Option Key) (job : Job) (rt : Runtime) :
    Prop where
  books : Books origin held exempt rt
  undo : a.Undo origin rt
  job : rt.jobs[a.ref]? = some job

theorem stable_held : Prog.Stable Events (a.Held origin n exempt job) :=
  fun _ _ h hevents => ⟨stable_books _ _ h.books hevents, stable_undo _ _ h.undo hevents,
    (hevents.undisturbed.job _ h.undo.idle).trans h.job⟩

theorem Held.update (h : a.Held origin n exempt job rt) {f : Job → Job} (hidle : job.live = false)
    (hlive : (f job).live = false) (hcalls : (f job).api_calls = job.api_calls) (hkey : (f job).key = job.key) :
    a.Held origin n exempt (f job) (rt.updateJob a.ref f) :=
  ⟨h.books.assign_idle h.job hidle h.undo.idle hlive hcalls hkey, h.undo.update f, by
    show (rt.jobs.modify a.ref f)[a.ref]? = _
    rw [List.getElem?_modify_eq, h.job]
    rfl⟩

/-- The reserved call becomes the job's when its session starts again. -/
theorem Held.restart (h : a.Held origin 1 none job rt) (hidle : job.live = false)
    (hbudget : job.api_budget = job.api_calls + 1) (hreserved : job.reserved_calls = 1)
    (hkey : job.key = a.key) :
    a.Held origin 0 (some a.key) job.restarted (rt.updateJob a.ref Job.restarted) := by
  have hother (key : Key) (hne : some key ≠ some a.key) (hwaiting : rt.waiting key = some a.ref) : False := by
    obtain ⟨b, hb, -, -, hbkey⟩ := h.books.waits key _ (by simp) hwaiting
    cases hb.symm.trans h.job
    exact hne (by rw [← hbkey, hkey])
  refine ⟨?_, h.undo.update _, ?_⟩
  · have hassign := h.books.exempting (some a.key) |>.assign h.job (f := Job.restarted)
      (fun _ => restarted_sound (by rw [hbudget, hreserved]) (by rw [hreserved]; decide))
      (charge_idle hidle).symm rfl
      (fun key hne hwaiting => (hother key hne hwaiting).elim) fun hmem => absurd hmem h.undo.idle
    have hholds : job.restarted.holds = 1 := hreserved
    rwa [hholds, holds_idle hidle, sub_zero, sub_self] at hassign
  · show (rt.jobs.modify a.ref Job.restarted)[a.ref]? = _
    rw [List.getElem?_modify_eq, h.job]
    rfl

/-- The job is running again and out of its journal; a late failure can still undo it. -/
structure Done (a : Attempt) (origin : Origin) (rt : Runtime) : Prop where
  books : Books origin 0 none rt
  started : Started a.ref rt
  undo : a.Undo origin rt

theorem stable_done : Prog.Stable Events (a.Done origin) :=
  fun _ _ h hevents => ⟨stable_books _ _ h.books hevents, stable_started _ _ _ h.started hevents,
    stable_undo _ _ h.undo hevents⟩

theorem Held.done (h : a.Held origin 0 (some a.key) job rt) (hlive : job.live = true) :
    a.Done origin (rt.putResumed a.role a.node a.prompt fun key jobs => jobs.erase key) := by
  have hwaiting (key : Key) : (rt.putResumed a.role a.node a.prompt fun key jobs => jobs.erase key).waiting key =
      if key = a.key then none else rt.waiting key := waiting_erase ..
  obtain ⟨h1, h2, h3, h4, h5, h6, h7, h8⟩ := h.books
  refine ⟨⟨?_, ?_, ?_, ?_, fun key ref _ href => ?_, ?_, ?_, ?_⟩, ⟨⟨job, ?_, hlive⟩, fun key href => ?_⟩, h.undo.erase⟩
  · rwa [putResumed_jobs]
  · rwa [putResumed_reserved, putResumed_jobs]
  · rwa [putResumed_consumed, putResumed_jobs]
  · rwa [putResumed_config, putResumed_consumed, putResumed_reserved]
  · rw [hwaiting] at href
    rw [putResumed_jobs, putResumed_sessions]
    by_cases hkey : key = a.key
    · rw [if_pos hkey] at href
      cases href
    · rw [if_neg hkey] at href
      exact h5 key ref (by simpa using hkey) href
  · rwa [putResumed_sessions, putResumed_jobs]
  · rwa [putResumed_pending, putResumed_sessions]
  · rwa [putResumed_sessions]
  · rw [putResumed_jobs]
    exact h.job
  · rw [hwaiting] at href
    by_cases hkey : key = a.key
    · rw [if_pos hkey] at href
      cases href
    · rw [if_neg hkey] at href
      obtain ⟨b, hb, hidle, -⟩ := h5 key _ (by simpa using hkey) href
      cases hb.symm.trans h.job
      rw [hlive] at hidle
      cases hidle

theorem reserve_call_triple (hidle : job.live = false) :
    Prog.Triple Events (a.Held origin 0 none job) (reserve_call a.ref)
      (fun n rt => n = 1 ∧ a.Held origin 1 none { job with reserved_calls := 1 } rt)
      (fun _ => a.Undo origin) := by
  have hframe : Frame fun rt => a.Undo origin rt ∧ rt.jobs[a.ref]? = some job :=
    ⟨fun _ _ h hevents => ⟨stable_undo _ _ h.1 hevents,
      (hevents.undisturbed.job _ h.1.idle).trans h.2⟩, fun _ n h => ⟨h.1.reserved n, h.2⟩⟩
  refine .bind (Q := fun n => a.Held origin n none job) Events.refl
    ((reserve_triple hframe).mono (fun _ h => ⟨h.books, h.undo, h.job⟩)
      (fun _ _ h => ⟨h.2.1, h.2.2.1, h.2.2.2⟩) fun _ _ h => h.2.1) fun n => ?_
  refine .bind (Q := fun _ => a.Held origin n none { job with reserved_calls := n }) Events.refl
    (.modify stable_held stable_held fun rt h => ?_) fun _ => ?_
  · exact h.update (f := fun job => { job with reserved_calls := n }) hidle hidle rfl rfl
  refine .ite (fun _ => ?_) fun hn => ?_
  · exact .bind (Q := fun _ => a.Undo origin) Events.refl
      (.modify stable_held stable_undo fun rt h => h.undo.reserved _) fun _ => .raise stable_undo fun _ h => h
  · obtain rfl : n = 1 := by simpa using hn
    exact .ret stable_held fun _ h => ⟨rfl, h⟩

theorem Held.scratch (h : a.Held origin n exempt job rt) (before : Dict String Text) :
    a.Held origin n exempt job { rt with scratch_before := before } :=
  ⟨h.books.congr rfl rfl rfl rfl (fun key => by cases key <;> rfl) rfl rfl,
    h.undo.congr rfl rfl rfl rfl rfl (fun key _ => by cases key <;> rfl), h.job⟩

/-- From the journal to a job that may be restarted. -/
theorem extend_triple (hkey : job.key = a.key) (hidle : job.live = false) :
    Prog.Triple Events (a.Held origin 1 none { job.extended with reserved_calls := 1 })
      (Prog.modify (Runtime.updateJob a.ref Job.restarted) : Controller Unit)
      (fun _ => a.Held origin 0 (some a.key) { job.extended with reserved_calls := 1 }.restarted)
      (fun _ => a.Undo origin) :=
  .modify stable_held stable_held fun _ h => h.restart hidle rfl rfl hkey

theorem undone (e : Raised) : Prog.Triple Events (a.Held origin n exempt job) (Prog.fault e : Controller Unit)
    (fun _ => a.Held origin n exempt job) (fun _ => a.Undo origin) := .fault stable_held fun _ h => h.undo

theorem undone_checked {α : Type} (result : Except ValueError α) :
    Prog.Triple Events (a.Held origin n exempt job) (checked result) (fun _ => a.Held origin n exempt job)
      (fun _ => a.Undo origin) := Prog.Outline.ofExcept stable_held.kept (fun _ _ _ h => h) fun _ _ _ h => h.undo

theorem resume_role_job_triple (hrole : role_group a.role = .orchestrator) (hidle : a.previous.live = false)
    (hkey : a.previous.key = a.key) :
    Prog.Triple Events (a.Held origin 0 none a.previous) (resume_role_job a.ref a.role a.prompt)
      (fun prepared rt => prepared.1 = a.ref ∧ a.Done origin rt) (fun _ => a.Undo origin) := by
  refine .bind (Q := fun _ => a.Held origin 0 none a.previous.extended) Events.refl
    (.modify stable_held stable_held fun _ h => h.update (f := Job.extended) hidle hidle rfl rfl) fun _ => ?_
  refine .bind Events.refl (reserve_call_triple hidle) fun n => ?_
  refine .bind (Q := fun _ => _) Events.refl
    ((extend_triple hkey hidle).mono (fun _ h => h.2) (fun _ _ h => h) fun _ _ h => h) fun _ => ?_
  refine .bind Events.refl (undone _) fun _ => ?_
  refine .bind (Q := fun _ => a.Held origin 0 (some a.key) _) Events.refl
    (.get stable_held fun _ _ h hevents => stable_held _ _ h hevents) fun _ => ?_
  refine .bind (Q := fun _ => a.Done origin) Events.refl (.modify stable_held stable_done fun rt h => ?_)
    fun _ => ?_
  · have hnode : rt.putResumed a.role none a.prompt (fun key jobs => jobs.erase key) =
        rt.putResumed a.role a.node a.prompt fun key jobs => jobs.erase key := by
      rw [Runtime.putResumed, Runtime.putResumed, if_pos hrole, if_pos hrole]
    rw [hnode]
    exact h.done rfl
  · exact .bind Events.refl (.fault stable_done fun _ h => h.undo) fun _ => .ret stable_done fun _ h => ⟨rfl, h⟩

theorem resume_node_job_triple {node : Node} (hnode : a.node = some node)
    (hrole : role_group a.role ≠ .orchestrator) (hidle : a.previous.live = false)
    (hkey : a.previous.key = a.key) :
    Prog.Triple Events (a.Held origin 0 none a.previous) (resume_node_job region a.ref a.role node)
      (fun prepared rt => prepared.1 = a.ref ∧ a.Done origin rt) (fun _ => a.Undo origin) := by
  refine .bind (Q := fun _ => a.Held origin 0 none a.previous.extended) Events.refl
    (.modify stable_held stable_held fun _ h => h.update (f := Job.extended) hidle hidle rfl rfl) fun _ => ?_
  refine .bind Events.refl (.bind Events.refl (undone _) fun _ => undone _) fun _ => ?_
  refine .bind Events.refl (reserve_call_triple hidle) fun n => ?_
  refine .bind (Q := fun _ => _) Events.refl
    ((extend_triple hkey hidle).mono (fun _ h => h.2) (fun _ _ h => h) fun _ _ h => h) fun _ => ?_
  refine .bind (Q := fun _ => a.Held origin 0 (some a.key) _) Events.refl
    (.get stable_held fun _ _ h hevents => stable_held _ _ h hevents) fun rt => ?_
  dsimp only
  cases (rt.files.get? (rt.jobs[a.ref]?.elim "" (·.id), .source_before)).bind Entry.content with
  | none =>
    refine .bind (Q := fun _ => a.Undo origin) Events.refl
      (.modify stable_held stable_undo fun _ h => h.undo.reserved _) fun _ => ?_
    refine .bind (Q := fun _ => a.Undo origin) Events.refl
      (.modify stable_undo stable_undo fun _ h => h.update _) fun _ => ?_
    exact .raise stable_undo fun _ h => h
  | some before =>
    refine .bind Events.refl (undone _) fun _ => ?_
    refine .bind Events.refl (undone_checked _) fun before => ?_
    refine .bind (Q := fun _ => a.Held origin 0 (some a.key) _) Events.refl
      (.modify stable_held stable_held fun _ h => h.scratch _) fun _ => ?_
    refine .bind Events.refl (undone _) fun _ => ?_
    refine .bind (Q := fun _ => a.Held origin 0 (some a.key) _) Events.refl
      (.get stable_held fun _ _ h hevents => stable_held _ _ h hevents) fun rt => ?_
    refine .bind (Q := fun _ => a.Done origin) Events.refl (.modify stable_held stable_done fun rt h => ?_)
      fun _ => ?_
    · have hprompt : rt.putResumed a.role (some node) "" (fun key jobs => jobs.erase key) =
          rt.putResumed a.role a.node a.prompt fun key jobs => jobs.erase key := by
        rw [Runtime.putResumed, Runtime.putResumed, if_neg hrole, if_neg hrole, hnode]
      rw [hprompt]
      exact h.done rfl
    · exact .bind Events.refl (.fault stable_done fun _ h => h.undo) fun _ => .ret stable_done fun _ h => ⟨rfl, h⟩

/-- Whatever the resumed call raised, the handler makes the books right. -/
theorem put_back_triple (e : Raised) :
    Prog.Triple Events (a.Undo origin) (do
      Prog.modify fun rt => { rt with reserved := a.before }
      Prog.modify (Runtime.updateJob a.ref fun _ => a.previous)
      Prog.modify (Runtime.putResumed a.role a.node a.prompt fun key jobs => jobs.set key a.ref)
      .raise e : Controller (Nat × Context))
      (fun _ => Books origin 0 none) (fun _ => Books origin 0 none) := by
  have hreserved : Prog.Stable Events fun rt => a.Undo origin rt ∧ rt.reserved = a.before :=
    fun _ _ h hevents => ⟨stable_undo _ _ h.1 hevents, hevents.undisturbed.reserved.trans h.2⟩
  have hprevious : Prog.Stable Events fun rt =>
      (a.Undo origin rt ∧ rt.reserved = a.before) ∧ ∀ job, rt.jobs[a.ref]? = some job → job = a.previous :=
    fun _ _ h hevents => ⟨hreserved _ _ h.1 hevents,
      fun job hjob => h.2 job (hevents.undisturbed.job _ h.1.1.idle ▸ hjob)⟩
  refine .bind (Q := fun _ rt => a.Undo origin rt ∧ rt.reserved = a.before) Events.refl
    (.modify stable_undo hreserved fun _ h => ⟨h.reserved _, rfl⟩) fun _ => ?_
  refine .bind (Q := fun _ rt =>
    (a.Undo origin rt ∧ rt.reserved = a.before) ∧ ∀ job, rt.jobs[a.ref]? = some job → job = a.previous)
    Events.refl (.modify hreserved hprevious fun rt h => ⟨⟨h.1.update _, h.2⟩, fun job hjob => ?_⟩) fun _ => ?_
  · have hat : (rt.jobs.modify a.ref fun _ => a.previous)[a.ref]? = some job := hjob
    rw [List.getElem?_modify_eq] at hat
    obtain ⟨-, -, rfl⟩ := Option.map_eq_some_iff.mp hat
    rfl
  refine .bind (Q := fun _ => Books origin 0 none) Events.refl
    (.modify hprevious stable_books fun rt h => ?_) fun _ => .raise stable_books fun _ h => h
  obtain ⟨⟨hundo, hreserved⟩, hjob⟩ := h
  have hrollback : a.rollback rt = rt.putResumed a.role a.node a.prompt fun key jobs => jobs.set key a.ref := by
    have hjobs : rt.updateJob a.ref (fun _ => a.previous) = rt := by
      rw [Runtime.updateJob, modify_eq_self fun job h => (hjob job h).symm]
    rw [rollback, ← hreserved, hjobs]
  exact hrollback ▸ hundo.books

end Attempt

/-! ### Admission -/

/-- What a caller asks for; provers and negations work on a node. -/
structure Call where
  role : Role
  node : Option Node
  prompt : String
  assigned : role_group role ≠ .orchestrator → node.isSome

def Call.key (call : Call) : Key := key_of call.role call.node call.prompt

theorem keeps_require_capacity {P : Runtime → Prop} (hP : Prog.Stable Events P) (role : Role) :
    Prog.Keeps Events P (require_capacity role) := by
  refine .bind Events.refl (.get hP) fun rt => ?_
  dsimp only
  cases (session_metrics rt.jobs rt.config (role_group role)).limit with
  | none => exact .ret hP _
  | some limit => exact .ite (.raise hP _) (.ret hP _)

variable (call : Call)

/-- Nothing to resume: a fresh job. -/
theorem prepare_fresh_triple :
    Prog.Triple Events (fun rt => Books origin 0 none rt ∧ rt.waiting call.key = none)
      (prepare_job C region call.role call.node call.prompt)
      (fun prepared rt => Books origin 0 none rt ∧ Started prepared.1 rt) (fun _ => Books origin 0 none) := by
  have hstable : Prog.Stable Events fun rt => Books origin 0 none rt ∧ rt.waiting call.key = none :=
    fun _ _ h hevents => ⟨stable_books _ _ h.1 hevents, hevents.undisturbed.waiting ▸ h.2⟩
  refine .bind Events.refl ((Prog.Keeps.triple (keeps_require_capacity hstable _)).mono (fun _ h => h) (fun _ _ h => h)
    fun _ _ h => h.1) fun _ => ?_
  refine .bind (Q := fun rt rt' => rt.waiting call.key = none ∧ Books origin 0 none rt') Events.refl
    (.get hstable fun _ _ h hevents => ⟨h.2, stable_books _ _ h.1 hevents⟩) fun rt => ?_
  intro rt' h
  have hresumed : rt.resumed call.role call.node call.prompt = none := (resumed_eq ..).trans h.1
  simp only [hresumed]
  exact fresh_job_triple call.role call.node call.prompt rt' h.2

/-- A waiting job is resumed. -/
theorem prepare_resumed_triple {a : Attempt} (hrole : a.role = call.role) (hnode : a.node = call.node)
    (hprompt : a.prompt = call.prompt) (hidle : a.previous.live = false) (hkey : a.previous.key = a.key) :
    Prog.Triple Events
      (fun rt => a.Held origin 0 none a.previous rt ∧ rt.waiting call.key = some a.ref)
      (prepare_job C region call.role call.node call.prompt)
      (fun prepared rt => prepared.1 = a.ref ∧ a.Done origin rt) (fun _ => a.Undo origin) := by
  have hstable : Prog.Stable Events
      fun rt => a.Held origin 0 none a.previous rt ∧ rt.waiting call.key = some a.ref :=
    fun _ _ h hevents => ⟨Attempt.stable_held _ _ h.1 hevents, hevents.undisturbed.waiting ▸ h.2⟩
  refine .bind Events.refl ((Prog.Keeps.triple (keeps_require_capacity hstable _)).mono (fun _ h => h) (fun _ _ h => h)
    fun _ _ h => h.1.undo) fun _ => ?_
  refine .bind (Q := fun rt rt' => rt.waiting call.key = some a.ref ∧ a.Held origin 0 none a.previous rt')
    Events.refl (.get hstable fun _ _ h hevents => ⟨h.2, Attempt.stable_held _ _ h.1 hevents⟩) fun rt => ?_
  intro rt' h
  have hresumed : rt.resumed call.role call.node call.prompt = some a.ref := (resumed_eq ..).trans h.1
  have hrole_triple (horchestrator : role_group call.role = .orchestrator) :=
    Attempt.resume_role_job_triple  (hrole ▸ horchestrator) hidle hkey rt' h.2
  simp only [hresumed]
  cases hcall : call.node with
  | none =>
    have horchestrator : role_group call.role = .orchestrator := by
      by_contra hne
      simpa [hcall] using call.assigned hne
    simp only [if_pos horchestrator]
    exact hrole ▸ hprompt ▸ hrole_triple horchestrator
  | some node =>
    by_cases horchestrator : role_group call.role = .orchestrator
    · simp only [if_pos horchestrator]
      exact hrole ▸ hprompt ▸ hrole_triple horchestrator
    · simp only [if_neg horchestrator]
      exact hrole ▸ Attempt.resume_node_job_triple (hnode.trans hcall) (hrole ▸ horchestrator) hidle hkey rt' h.2

/-- **Admission keeps the books**: whether the call is admitted, refused or cut short by any
failure, and whatever sessions report meanwhile. -/
theorem new_job_triple :
    Prog.Triple Events (Books origin 0 none) (new_job C region call.role call.node call.prompt)
      (fun _ => Books origin 0 none) (fun _ => Books origin 0 none) := by
  refine .bind (Q := fun rt rt' => Books origin 0 none rt ∧ Books origin 0 none rt' ∧ Undisturbed rt rt')
    Events.refl (.get stable_books fun _ _ h hevents =>
      ⟨h, stable_books _ _ h hevents, hevents.undisturbed⟩) fun rt => ?_
  rintro rt' ⟨hbefore, hbooks, hsame⟩
  have hresumed : rt.resumed call.role call.node call.prompt = rt.waiting call.key := resumed_eq ..
  simp only [hresumed]
  have hstart (ref : Nat) (after : Runtime) (h : Books origin 0 none after ∧ Started ref after) :
      Books origin 0 none { after with sessions := after.sessions ++ [ref] } := h.1.start h.2
  cases hwaiting : rt.waiting call.key with
  | none =>
    refine Prog.Triple.handle (E := fun _ => Books origin 0 none)
      (P := fun rt' => Books origin 0 none rt' ∧ rt'.waiting call.key = none) Events.refl ?_
      (fun e => Prog.Triple.raise (e := e) stable_books fun _ h => h) rt' ⟨hbooks, hsame.waiting ▸ hwaiting⟩
    refine .bind Events.refl (prepare_fresh_triple call) fun prepared => ?_
    have hstable : Prog.Stable Events fun rt => Books origin 0 none rt ∧ Started prepared.1 rt :=
      stable_books.and (stable_started _)
    refine .bind (Q := fun _ rt => Books origin 0 none rt ∧ Started prepared.1 rt) Events.refl
      (.fault hstable fun _ h => h.1) fun _ => ?_
    exact .bind (Q := fun _ => Books origin 0 none) Events.refl (.modify hstable stable_books (hstart _))
      fun _ => .ret stable_books fun _ h => h
  | some ref =>
    obtain ⟨previous, hjob, hidle, hnot, hkey⟩ := hbefore.waits _ _ (by simp) hwaiting
    let a : Attempt := ⟨call.role, call.node, call.prompt, ref, previous, rt.reserved⟩
    have hheld : a.Held origin 0 none previous rt' := by
      refine ⟨hbooks, ⟨hsame.sessions ▸ hnot, hbooks.congr ?_ ?_ ?_ ?_ (fun key => ?_) ?_ ?_⟩,
        (hsame.job _ hnot).trans hjob⟩
      · exact a.rollback_config rt'
      · rw [a.rollback_jobs, modify_eq_self]
        intro job h
        exact Option.some.inj (hjob.symm.trans ((hsame.job _ hnot).symm.trans h))
      · exact (a.rollback_reserved rt').trans hsame.reserved.symm
      · exact a.rollback_consumed rt'
      · rw [a.rollback_waiting]
        split
        · rename_i h
          rw [h, hsame.waiting]
          exact hwaiting.symm
        · rfl
      · exact a.rollback_sessions rt'
      · exact a.rollback_pending rt'
    have hprevious : (rt.jobs[·]?) ref = some previous := hjob
    simp only [Option.bind_some, hprevious]
    refine Prog.Triple.handle (E := fun _ => a.Undo origin)
      (P := fun rt' => a.Held origin 0 none previous rt' ∧ rt'.waiting call.key = some ref) Events.refl ?_
      (fun e => Attempt.put_back_triple (a := a) e) rt' ⟨hheld, hsame.waiting ▸ hwaiting⟩
    refine .bind Events.refl (prepare_resumed_triple call (a := a) rfl rfl rfl hidle hkey) fun prepared => ?_
    have hstable : Prog.Stable Events fun rt => prepared.1 = ref ∧ a.Done origin rt :=
      (Prog.stable_const _).and Attempt.stable_done
    refine .bind (Q := fun _ rt => prepared.1 = ref ∧ a.Done origin rt) Events.refl
      (.fault hstable fun _ h => h.2.undo) fun _ => ?_
    refine .bind (Q := fun _ => Books origin 0 none) Events.refl (.modify hstable stable_books fun rt h => ?_)
      fun _ => .ret stable_books fun _ h => h
    exact hstart _ _ ⟨h.2.books, h.1 ▸ h.2.started⟩

end LeanFlow.Jobs
