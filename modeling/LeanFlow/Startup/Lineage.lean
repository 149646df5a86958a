import LeanFlow.Startup.Launch

/-! What becomes of a run whose resume fails at startup.

The published state keeps the graph, the jobs, the changes and the metrics of the
copy. It also declares the version of the retired engine, so that no later resume
of it, and none of a resume of that, gets past the version gate. -/
namespace LeanFlow.Startup
open General

variable {directory redact : String → String} {default_mode : Json}

/-! ### The clone -/

theorem clone_ok {previous current : String} {runs runs' : Runs}
    (h : clone_resume_run directory previous current runs = .ok runs') :
    ∃ run state copy, runs.get? previous = some run ∧ run.state = some state ∧
      copy.state = some (cloned_state directory previous current state) ∧ runs' = runs.set current copy := by
  unfold clone_resume_run at h
  split at h
  · cases h
  · split at h
    · rename_i state artifacts symlinks hprevious _
      split at h
      · cases h
      · split at h
        · cases h
        · cases h
          exact ⟨_, state, _, hprevious, rfl, rfl, rfl⟩
    · cases h

/-- The copy keeps every field the lineage does not name, its paths relocated. -/
theorem get?_cloned_state {name : String}
    (hname : name ∉ ["run_id", "resumed_from", "parent_run_id", "terminal"]) (previous current : String)
    (state : Fields) : (cloned_state directory previous current state).get? name =
      (state.get? name).map (relocate (directory previous) (directory current) name) := by
  rw [cloned_state, Fields.get?_update_of_not_mem hname, get?_relocate_fields]

theorem number_relocate (old new key : String) (value : Json) :
    (relocate old new key value).number = value.number := by
  cases value <;> rfl

/-- A copy has the version of the run it was made of. -/
theorem version_cloned_state (previous current : String) (state : Fields) :
    ((cloned_state directory previous current state).get? "version").bind Json.number =
      (state.get? "version").bind Json.number := by
  rw [get?_cloned_state (by decide)]
  cases state.get? "version" with
  | none => rfl
  | some value => exact number_relocate _ _ _ value

/-- A run of another version is not resumed. -/
theorem resume_ne_ok {proceed : Run → Except Raised Resumed} {previous current : String} {runs : Runs}
    {run : Run} {state : Fields} (hrun : runs.get? previous = some run) (hstate : run.state = some state)
    (hversion : (state.get? "version").bind Json.number ≠ some 2) (resumed : Resumed) :
    resume directory proceed previous current runs ≠ .ok resumed := by
  intro h
  obtain ⟨runs', hclone, hrestore⟩ := bind_eq_ok.mp h
  obtain ⟨run', state', copy, hrun', hstate', hcopy, rfl⟩ := clone_ok hclone
  cases hrun.symm.trans hrun'
  cases hstate.symm.trans hstate'
  simp only [Dict.get?_set_self, restore, hcopy, version_cloned_state] at hrestore
  rw [if_pos hversion] at hrestore
  cases hrestore

/-! ### The published state -/

/-- What a resume continues from. -/
def progress_fields : List String := ["dag", "jobs", "changes", "metrics"]

variable (run_id previous : String) (failure : Failure) (state : Fields)

/-- What is in the state once its fields are assigned is published. -/
theorem get?_failed_state {name : String} {value : Json} (hname : name ∉ ["resumed_from", "parent_run_id"])
    (hvalue : (state.update (outcome redact default_mode run_id failure state)).get? name = some value) :
    (failed_state redact default_mode run_id previous failure state).get? name = some value := by
  have hfilled := Fields.get?_setdefaults_of_some (defaults failure) hvalue
  have hnot : name ∉ (lineage previous).map Prod.fst := by
    unfold lineage
    split
    · exact List.not_mem_nil
    · exact hname
  have hlineage := (Fields.get?_update_of_not_mem hnot _).trans hfilled
  unfold failed_state
  dsimp only
  split
  · exact hlineage
  · exact Fields.get?_setdefault_of_some hlineage _ _

theorem version_failed_state :
    (failed_state redact default_mode run_id previous failure state).get? "version" = some (.num 1) :=
  get?_failed_state run_id previous failure state (by decide)
    (Fields.get?_update (by simp [outcome]) (by simp [outcome]) state)

/-- The graph, the jobs, the changes and the metrics are kept. -/
theorem progress_failed_state {name : String} (hname : name ∈ progress_fields) {value : Json}
    (hvalue : state.get? name = some value) :
    (failed_state redact default_mode run_id previous failure state).get? name = some value := by
  have hnot : name ∉ (outcome redact default_mode run_id failure state).map Prod.fst ∧
      name ∉ ["resumed_from", "parent_run_id"] := by
    simp only [progress_fields, List.mem_cons, List.not_mem_nil, or_false] at hname
    rcases hname with rfl | rfl | rfl | rfl <;> simp [outcome]
  exact get?_failed_state run_id previous failure state hnot.2
    ((Fields.get?_update_of_not_mem hnot.1 state).trans hvalue)

/-! ### Resuming what failed -/

variable {run_id previous : String} {failure : Failure} {runs runs' : Runs}
variable {proceed : Run → Except Raised Resumed}

/-- The run of a failed startup, as it is published. -/
theorem get?_startup_failure (redact : String → String) (default_mode : Json) (run_id previous : String)
    (failure : Failure) (runs : Runs) :
    ∃ run, (startup_failure redact default_mode run_id previous failure runs).get? run_id = some run ∧
      run.state = some (failed_state redact default_mode run_id previous failure
        (existing_state run_id previous runs)) :=
  ⟨_, Dict.get?_set_self .., rfl⟩

/-- No run that failed at startup is resumed, under any id. -/
theorem startup_failure_refused (run_id previous next : String) (failure : Failure) (runs : Runs)
    (resumed : Resumed) : resume directory proceed run_id next
      (startup_failure redact default_mode run_id previous failure runs) ≠ .ok resumed := by
  obtain ⟨run, hrun, hstate⟩ := get?_startup_failure redact default_mode run_id previous failure runs
  refine resume_ne_ok hrun hstate ?_ resumed
  rw [version_failed_state]
  simp [Json.number]

/-- The runs that were cloned and failed are those the last attempt published. -/
theorem failed_resumes_last {attempts : List Attempt} (hattempts : attempts ≠ [])
    (h : failed_resumes directory redact default_mode previous attempts runs = .ok runs') :
    ∃ parent earlier, runs' = startup_failure redact default_mode (attempts.getLast hattempts).run_id parent
      (attempts.getLast hattempts).failure earlier := by
  induction attempts generalizing previous runs with
  | nil => exact absurd rfl hattempts
  | cons attempt attempts ih =>
    obtain ⟨middle, hmiddle, hrest⟩ := bind_eq_ok.mp h
    cases attempts with
    | nil =>
      cases hrest
      obtain ⟨cloned, -, hfailed⟩ := bind_eq_ok.mp hmiddle
      cases hfailed
      exact ⟨previous, _, rfl⟩
    | cons second attempts =>
      have hne : second :: attempts ≠ [] := List.cons_ne_nil second attempts
      rw [List.getLast_cons hne]
      exact ih hne hrest

/-- What a resume of the failed run should give: the progress of the copy is published, and once the
cause is corrected the failed run continues where the original does. -/
structure Resumable (directory : String → String) (proceed : Run → Except Raised Resumed) (copied : Fields)
    (runs : Runs) (original failed : String) : Prop where
  kept : ∃ run state, runs.get? failed = some run ∧ run.state = some state ∧
    ∀ name ∈ progress_fields, state.get? name = copied.get? name
  accepted : ∃ next other resumed, resume directory proceed failed next runs = .ok resumed ∧
    resume directory proceed original other runs = .ok resumed

/-- A copy whose controller persisted nothing is published with the progress it was cloned with. -/
theorem failed_resume_kept {attempt : Attempt} (hpersisted : attempt.persisted = none)
    (h : failed_resume directory redact default_mode previous attempt runs = .ok runs') :
    ∃ run saved copied published published_run, runs.get? previous = some run ∧ run.state = some saved ∧
      cloned_state directory previous attempt.run_id saved = copied ∧
      runs'.get? attempt.run_id = some published_run ∧ published_run.state = some published ∧
      ∀ name ∈ progress_fields, ∀ value, copied.get? name = some value → published.get? name = some value := by
  obtain ⟨cloned, hclone, hfailed⟩ := bind_eq_ok.mp h
  obtain ⟨run, saved, copy, hrun, hsaved, hcopy, rfl⟩ := clone_ok hclone
  cases hfailed
  have hpersist : attempt.persist (runs.set attempt.run_id copy) = runs.set attempt.run_id copy := by
    simp [Attempt.persist, hpersisted]
  have howner : (cloned_state directory previous attempt.run_id saved).get? "run_id" =
      some (.str attempt.run_id) := Fields.get?_update (by simp) (by simp) _
  have hexisting : existing_state attempt.run_id previous (runs.set attempt.run_id copy) =
      cloned_state directory previous attempt.run_id saved := by
    simp [existing_state, hcopy, howner, Json.text]
  obtain ⟨published_run, hpublished, hstate⟩ := get?_startup_failure redact default_mode attempt.run_id
    previous attempt.failure (runs.set attempt.run_id copy)
  rw [hexisting] at hstate
  refine ⟨run, saved, _, _, published_run, hrun, hsaved, rfl, ?_, hstate, fun name hname value hvalue => ?_⟩
  · rw [hpersist]
    exact hpublished
  · exact progress_failed_state _ _ _ _ hname hvalue

/-- **No chain of failed resumes ends in a run that can be resumed.** -/
theorem failed_resumes_unresumable {attempts : List Attempt} (hattempts : attempts ≠ [])
    (h : failed_resumes directory redact default_mode previous attempts runs = .ok runs')
    (proceed : Run → Except Raised Resumed) (copied : Fields) :
    ¬ Resumable directory proceed copied runs' previous (attempts.getLast hattempts).run_id := by
  intro hresumable
  obtain ⟨next, other, resumed, hnext, -⟩ := hresumable.accepted
  obtain ⟨parent, earlier, rfl⟩ := failed_resumes_last hattempts h
  exact startup_failure_refused _ _ _ _ _ resumed hnext

/-! ### A run that is resumed once with a changed source -/

def savedState : Fields :=
  [("version", .num 2), ("run_id", .str "old"), ("dag", .obj [("nodes", .arr [])]), ("jobs", .arr []),
    ("changes", .arr []), ("metrics", .obj [("api_calls", .num 37)]), ("targets", .arr [.str "Main.lean"])]

def savedRuns : Runs := Dict.empty.set "old" { state := some savedState }

def changedSource : Attempt := { run_id := "new", failure := { error := "protected source changed: Main.lean" } }

/-- A controller that continues with what the state says. -/
def continued (run : Run) : Except Raised Resumed :=
  match run.state.bind (·.get? "dag") with
  | none => .error (.key_error "dag")
  | some dag => .ok ⟨dag, [], 37⟩

def runDirectory (run_id : String) : String := ".leanflow/workflow-state/prover/" ++ run_id

theorem savedRuns_unresumable : ∃ runs', failed_resumes runDirectory id (.str "research") "old" [changedSource]
    savedRuns = .ok runs' ∧ ∀ copied, ¬ Resumable runDirectory continued copied runs' "old" "new" := by
  have hchain : ∃ runs', failed_resumes runDirectory id (.str "research") "old" [changedSource] savedRuns =
      .ok runs' := ⟨_, rfl⟩
  obtain ⟨runs', hruns⟩ := hchain
  exact ⟨runs', hruns, failed_resumes_unresumable (List.cons_ne_nil changedSource []) hruns continued⟩

/-- The saved run is resumed, the run of its failed resume is not. -/
theorem savedRuns_retired : ∃ runs', failed_resume runDirectory id (.str "research") "old" changedSource
    savedRuns = .ok runs' ∧ (resume runDirectory continued "old" "newer" savedRuns).isOk ∧
      ∀ copied, ¬ Resumable runDirectory continued copied runs' "old" "new" := by
  refine ⟨_, rfl, rfl, fun copied hresumable => ?_⟩
  obtain ⟨next, other, resumed, hnext, -⟩ := hresumable.accepted
  exact startup_failure_refused _ _ _ _ _ resumed hnext

end LeanFlow.Startup
