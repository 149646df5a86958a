import LeanFlow.Jobs.Prepare

/-! Untrusted scratch and the next job of its node.

The scratch of a prover job is whatever its session left there. The next job of
the same node and revision carries over what the earlier scratch has in the
node's holes. `prepare_job` renders that work with `declaration_source`, which
refuses what `validate_hole_replacement` refuses, and nothing there catches the
refusal: such a scratch aborts the job (`command_aborts`), and every later one.
`fresh_job_iff` says when the job is prepared, `resumed_job_prepared` that a
resumed job does not depend on its scratch. -/
namespace LeanFlow.Jobs
open General Goals Source

variable {C : CharClass} {region : Text → String → Text}

/-! ### A node that can be assigned -/

/-- The campaign can still reserve a call. -/
structure Affords (rt : Runtime) : Prop where
  calls : ∀ limit, rt.config.agent_calls = some limit → rt.consumed + rt.reserved < limit
  metered : rt.config.tokens = none ∨ rt.jobs.any Job.unmetered = false
  tokens : ∀ limit, rt.config.tokens = some limit →
    (rt.jobs.map fun job => job.input_tokens + job.output_tokens).sum < limit

/-- It can, and so can the allowance of the role. -/
structure Admits (rt : Runtime) (role : Role) : Prop extends Affords rt where
  sessions : has_capacity rt role = true

/-- The node's document renders, and the node's holes are open in it. -/
structure Assignable (C : CharClass) (rt : Runtime) (node : Node) (document : SourceDocument)
    (before : Text) (spans : List (Nat × Nat)) : Prop where
  known : rt.documents.get? node.file = some document
  renders : declaration_source C document node none = .ok before
  scans : sorry_spans C document.baseline = .ok spans
  opened : ∀ hole ∈ node.holes, hole ∈ open_holes document.replacements spans
  distinct : node.holes.Nodup
  unused : ∀ job ∈ rt.jobs, job.id ≠ job_name .prover (rt.jobs.length + 1)

theorem calm_reserve {rt : Runtime} (h : Affords rt) :
    Prog.calm (reserve 1) rt = (.ok 1, { rt with reserved := rt.reserved + 1 }) := by
  have hremaining : (rt.config.agent_calls.map fun (limit : Nat) =>
      (limit : Int) - rt.consumed - rt.reserved).any (· ≤ 0) = false := by
    cases hlimit : rt.config.agent_calls with
    | none => rfl
    | some limit =>
      have hlt := h.calls limit hlimit
      show decide ((limit : Int) - rt.consumed - rt.reserved ≤ 0) = false
      rw [decide_eq_false_iff_not]
      omega
  have hallocation : (rt.config.agent_calls.map fun (limit : Nat) =>
      (limit : Int) - rt.consumed - rt.reserved).elim 1 (min 1) = 1 := by
    cases hlimit : rt.config.agent_calls with
    | none => rfl
    | some limit =>
      have hlt := h.calls limit hlimit
      show min 1 ((limit : Int) - rt.consumed - rt.reserved) = 1
      omega
  have hmetered : (rt.config.tokens.isSome && rt.jobs.any Job.unmetered) = false := by
    rcases h.metered with hnone | hany
    · simp [hnone]
    · simp [hany]
  have htokens : rt.config.tokens.any
      (· ≤ (rt.jobs.map fun job => job.input_tokens + job.output_tokens).sum) = false := by
    cases hlimit : rt.config.tokens with
    | none => rfl
    | some limit =>
      have := h.tokens limit hlimit
      simpa using this
  simp only [reserve, ensure_active, check_storage, Prog.calm_bind, Prog.calm_fault, Prog.calm_get,
    hremaining, hmetered, htokens, hallocation, Bool.false_eq_true, if_false, Prog.calm_modify,
    Prog.calm_pure]

theorem calm_require_capacity {rt : Runtime} {role : Role} (h : has_capacity rt role = true) :
    Prog.calm (require_capacity role) rt = (.ok (), rt) := by
  simp only [has_capacity] at h
  simp only [require_capacity, Prog.calm_bind, Prog.calm_get]
  cases hlimit : (session_metrics rt.jobs rt.config (role_group role)).limit with
  | none => rfl
  | some limit =>
    simp only [hlimit, Option.all_some, decide_eq_true_eq] at h
    simp only [ge_iff_le, if_neg (Int.not_le.mpr h), Prog.calm_pure]

/-! ### Partial work -/

variable (C) in
/-- What an earlier scratch has in the holes of the node, when it has something in each. -/
def carried (node : Node) (rt : Runtime) (previous : Job) : Except ValueError (Option (List Text)) :=
  match prior_work rt previous with
  | none => .ok none
  | some (.error e) => .error e
  | some (.ok work) => (extract_scratch_replacements C work.1 work.2 previous.scratch_holes).map
    (Option.filter fun proofs => proofs ≠ [] ∧ proofs.length = node.holes.length)

variable (C) in
/-- The source a fresh job starts from when there is work to carry over. -/
def work_source (document : SourceDocument) (node : Node) :
    Except ValueError (Option (List Text)) → Except ValueError (Option Text)
  | .error e => .error e
  | .ok none => .ok none
  | .ok (some proofs) => (declaration_source C document node (some proofs)).map some

variable (C) in
def carried_source (document : SourceDocument) (node : Node) (rt : Runtime) (previous : Job) :
    Except ValueError (Option Text) := work_source C document node (carried C node rt previous)

/-- The plan of an earlier job, when it is a file and no link. -/
def prior_plan (rt : Runtime) (previous : Job) : Except ValueError (Option Text) :=
  match (rt.files.get? (previous.id, .plan)).bind Entry.regular with
  | none => .ok none
  | some plan => plan.map some

def Runtime.writeScratch (id : String) (source : Option Text) (rt : Runtime) : Runtime :=
  match source with
  | none => rt
  | some source => { rt with files := rt.files.set (id, .scratch) (.text source) }

theorem calm_carry_proofs (document : SourceDocument) (node : Node) (id : String) (previous : Job)
    (rt : Runtime) : Prog.calm (carry_proofs C id document node previous) rt =
      match carried_source C document node rt previous with
      | .error e => (.error (.value_error e), rt)
      | .ok source => (.ok (), rt.writeScratch id source) := by
  simp only [carry_proofs, Prog.calm_bind, Prog.calm_get, carried_source, work_source, carried]
  cases hprior : prior_work rt previous with
  | none => rfl
  | some work =>
    simp only [Prog.calm_bind, Prog.calm_fault, checked, Prog.calm_ofExcept]
    cases work with
    | error e => rfl
    | ok work =>
      simp only [Except.mapError]
      cases hextract : extract_scratch_replacements C work.1 work.2 previous.scratch_holes with
      | error e => rfl
      | ok proofs =>
        cases proofs with
        | none => rfl
        | some proofs =>
          simp only [Except.map, Option.filter]
          by_cases hfit : proofs ≠ [] ∧ proofs.length = node.holes.length
          · rw [if_pos hfit, if_pos (decide_eq_true hfit)]
            simp only [Prog.calm_bind, Prog.calm_ofExcept]
            cases declaration_source C document node (some proofs) with
            | error e => rfl
            | ok source => rfl
          · rw [if_neg hfit, if_neg (by simpa using hfit)]
            rfl

/-- The plan is copied beside the scratch, if it can be read. -/
theorem calm_copy_plan (id : String) (previous : Job) (rt : Runtime) :
    (∀ e, prior_plan rt previous = .error e →
      Prog.calm (copy_plan id previous) rt = (.error (.value_error e), rt)) ∧
    (∀ plan, prior_plan rt previous = .ok plan →
      ∃ rt', Prog.calm (copy_plan id previous) rt = (.ok (), rt') ∧
        rt'.files.get? (id, .scratch) = rt.files.get? (id, .scratch)) := by
  simp only [copy_plan, Prog.calm_bind, Prog.calm_get, prior_plan]
  cases (rt.files.get? (previous.id, .plan)).bind Entry.regular with
  | none =>
    constructor
    · rintro e ⟨⟩
    · exact fun _ _ => ⟨rt, rfl, rfl⟩
  | some plan =>
    cases plan with
    | error e =>
      constructor
      · rintro e' ⟨⟩
        rfl
      · rintro plan ⟨⟩
    | ok plan =>
      constructor
      · rintro e ⟨⟩
      · exact fun _ _ => ⟨_, rfl, Dict.get?_set_ne _ _ (by simp)⟩

/-- The source carried over from the latest job of the node, if there is one; its plan is read too. -/
def latest_source (C : CharClass) (document : SourceDocument) (node : Node) (rt : Runtime) :
    Option Job → Except ValueError (Option Text)
  | none => .ok none
  | some previous => (carried_source C document node rt previous).bind fun source =>
    (prior_plan rt previous).map fun _ => source

/-- The scratch of a job is not the plan of another. -/
theorem prior_plan_written (id : String) (source : Option Text) (rt : Runtime) (previous : Job) :
    prior_plan (rt.writeScratch id source) previous = prior_plan rt previous := by
  cases source with
  | none => rfl
  | some source =>
    simp only [prior_plan, Runtime.writeScratch]
    rw [Dict.get?_set_ne _ _ (by simp)]

theorem calm_carry_work (document : SourceDocument) (node : Node) (id : String) (previous : Option Job)
    (rt : Runtime) :
    (∀ e, latest_source C document node rt previous = .error e →
      ∃ rt', Prog.calm (carry_work C id document node previous) rt = (.error (.value_error e), rt')) ∧
    (∀ source, latest_source C document node rt previous = .ok source →
      ∃ rt', Prog.calm (carry_work C id document node previous) rt = (.ok (), rt') ∧
        rt'.files.get? (id, .scratch) = (rt.writeScratch id source).files.get? (id, .scratch)) := by
  cases previous with
  | none =>
    constructor
    · rintro e ⟨⟩
    · rintro source ⟨⟩
      exact ⟨rt, rfl, rfl⟩
  | some previous =>
    simp only [carry_work, latest_source, Prog.calm_bind, calm_carry_proofs]
    cases carried_source C document node rt previous with
    | error e =>
      constructor
      · rintro e' ⟨⟩
        exact ⟨rt, rfl⟩
      · rintro source ⟨⟩
    | ok source =>
      obtain ⟨hbad, hgood⟩ := calm_copy_plan id previous (rt.writeScratch id source)
      rw [prior_plan_written] at hbad hgood
      cases hplan : prior_plan rt previous with
      | error e =>
        constructor
        · rintro e' ⟨⟩
          exact ⟨_, hbad e hplan⟩
        · rintro source' ⟨⟩
      | ok plan =>
        constructor
        · rintro e ⟨⟩
        · rintro source' ⟨⟩
          exact hgood plan hplan

/-! ### The fresh job -/

theorem scratch_positions_eq {opened : List Nat} {node : Node} (h : ∀ hole ∈ node.holes, hole ∈ opened) :
    scratch_positions opened node = .ok (node.holes.map opened.idxOf) := by
  rw [scratch_positions]
  generalize node.holes = holes at h
  induction holes with
  | nil => rfl
  | cons hole holes ih =>
    rw [List.mapM_cons, if_pos (h hole (List.mem_cons_self ..)),
      ih fun hole hmem => h hole (List.mem_cons_of_mem _ hmem)]
    rfl

theorem latest_source_congr {rt rt' : Runtime} {document : SourceDocument} {node : Node}
    {previous : Option Job}
    (h : ∀ job, previous = some job → ∀ file, rt'.files.get? (job.id, file) = rt.files.get? (job.id, file)) :
    latest_source C document node rt' previous = latest_source C document node rt previous := by
  cases previous with
  | none => rfl
  | some previous => simp only [latest_source, carried_source, carried, prior_work, prior_plan, h previous rfl]

theorem previous_job_mem {jobs : List Job} {node : Node} {job : Job} (h : previous_job jobs node = some job) :
    job ∈ jobs := List.mem_reverse.mp (List.mem_of_find?_eq_some h)

/-- The state in which the earlier work of a fresh job is looked for. -/
def Runtime.rendered (id : String) (before : Text) (rt : Runtime) : Runtime :=
  { rt with
    files := (rt.files.set (id, .scratch) (.text before)).set (id, .source_before) (.text before)
    scratch_before := rt.scratch_before.set id before }

variable (region) in
theorem calm_fill_workspace {rt : Runtime} {node : Node} {document : SourceDocument} {before : Text}
    {spans : List (Nat × Nat)} (h : Assignable C rt node document before spans) {id : String}
    (hid : ∀ job ∈ rt.jobs, job.id ≠ id) :
    (∀ e, latest_source C document node rt (previous_job rt.jobs node) = .error e →
      ∃ rt', Prog.calm (fill_workspace C region id node) rt = (.error (.value_error e), rt')) ∧
    (∀ source, latest_source C document node rt (previous_job rt.jobs node) = .ok source →
      ∃ context rt', Prog.calm (fill_workspace C region id node) rt = (.ok context, rt') ∧
        context.job_id = id ∧
        context.scratch_holes = node.holes.map (open_holes document.replacements spans).idxOf ∧
        rt'.files.get? (id, .scratch) = some (.text (source.getD before))) := by
  have hfiles (job : Job) (hjob : previous_job rt.jobs node = some job) (file : JobFile) :
      (rt.rendered id before).files.get? (job.id, file) = rt.files.get? (job.id, file) := by
    have hne : job.id ≠ id := hid job (previous_job_mem hjob)
    simp only [Runtime.rendered]
    rw [Dict.get?_set_ne _ _ (by simp [hne]), Dict.get?_set_ne _ _ (by simp [hne])]
  obtain ⟨hbad, hgood⟩ := calm_carry_work (C := C) document node id (previous_job rt.jobs node)
    (rt.rendered id before)
  rw [latest_source_congr hfiles] at hbad hgood
  have hrun (result : Except Raised Unit) (rt' : Runtime)
      (hcarry : Prog.calm (carry_work C id document node (previous_job rt.jobs node)) (rt.rendered id before) =
        (result, rt')) :
      Prog.calm (fill_workspace C region id node) rt = (result.map fun _ => {
        job_id := id
        scratch_holes := node.holes.map (open_holes document.replacements spans).idxOf
        scratch_declaration := scratch_declaration region rt' id node
        previous_job := (previous_job rt.jobs node).map (·.id) }, rt') := by
    rw [Runtime.rendered] at hcarry
    simp only [fill_workspace, Prog.calm_bind, Prog.calm_get, h.known, checked, h.renders, Prog.calm_ofExcept,
      Except.mapError, write_source, Prog.calm_fault, Prog.calm_modify, h.scans, scratch_positions_eq h.opened,
      hcarry]
    cases result <;> rfl
  constructor
  · intro e he
    obtain ⟨rt', hrt'⟩ := hbad e he
    exact ⟨_, hrun _ _ hrt'⟩
  · intro source hsource
    obtain ⟨rt', hrt', hscratch⟩ := hgood source hsource
    refine ⟨_, rt', hrun _ _ hrt', rfl, rfl, ?_⟩
    rw [hscratch]
    cases source with
    | none =>
      show ((rt.files.set (id, .scratch) _).set (id, .source_before) _).get? _ = _
      rw [Dict.get?_set_ne _ _ (by simp), Dict.get?_set_self]
      rfl
    | some source => exact Dict.get?_set_self _ _ _

theorem Assignable.reserved {rt : Runtime} {node : Node} {document : SourceDocument} {before : Text}
    {spans : List (Nat × Nat)} (h : Assignable C rt node document before spans) (n : Int) :
    Assignable C { rt with reserved := n } node document before spans :=
  ⟨h.known, h.renders, h.scans, h.opened, h.distinct, h.unused⟩

theorem resumed_none {rt : Runtime} {node : Node} (h : rt.resume_jobs.get? node.id = none) (prompt : String) :
    rt.resumed .prover (some node) prompt = none := h

/-- A fresh prover job is prepared unless carrying the earlier work over raises. -/
theorem calm_new_job (region : Text → String → Text) {rt : Runtime} {node : Node} {document : SourceDocument} {before : Text}
    {spans : List (Nat × Nat)} (hadmits : Admits rt .prover)
    (h : Assignable C rt node document before spans) (hresume : rt.resume_jobs.get? node.id = none)
    (prompt : String) :
    (∀ e, latest_source C document node rt (previous_job rt.jobs node) = .error e →
      (Prog.calm (new_job C region .prover (some node) prompt) rt).1 = .error (.value_error e)) ∧
    (∀ source, latest_source C document node rt (previous_job rt.jobs node) = .ok source →
      ∃ ref context rt', Prog.calm (new_job C region .prover (some node) prompt) rt =
          (.ok (ref, context), rt') ∧
        context.scratch_holes = node.holes.map (open_holes document.replacements spans).idxOf ∧
        rt'.files.get? (context.job_id, .scratch) = some (.text (source.getD before))) := by
  obtain ⟨hbad, hgood⟩ := calm_fill_workspace region
    (h.reserved (rt.reserved + 1)) h.unused
  constructor
  · intro e he
    obtain ⟨rt', hrun⟩ := hbad e he
    simp only [new_job, Prog.calm_bind, Prog.calm_get, Prog.calm_handle, prepare_job,
      calm_require_capacity hadmits.sessions, resumed_none hresume, fresh_job, calm_reserve hadmits.toAffords,
      Prog.calm_fault, build_job, collect_context, assign_workspace, hrun]
    rfl
  · intro source hsource
    obtain ⟨context, rt', hrun, hid, hholes, hscratch⟩ := hgood source hsource
    simp only [new_job, Prog.calm_bind, Prog.calm_get, Prog.calm_handle, prepare_job,
      calm_require_capacity hadmits.sessions, resumed_none hresume, fresh_job, calm_reserve hadmits.toAffords,
      Prog.calm_fault, build_job, collect_context, assign_workspace, hrun]
    refine ⟨_, _, _, rfl, hholes, ?_⟩
    rw [← hscratch, hid]
    exact Dict.get?_set_ne _ _ (by simp)

/-! ### Scratch that cannot abort the next job -/

section Scratch
variable (C) (region)

/-- What the scratch of the latest job of the node offers to carry over. -/
def offered (rt : Runtime) (node : Node) : Except ValueError (Option (List Text)) :=
  match previous_job rt.jobs node with
  | none => .ok none
  | some previous => carried C node rt previous

/-- The plan that the latest job of the node left. -/
def planned (rt : Runtime) (node : Node) : Except ValueError (Option Text) :=
  match previous_job rt.jobs node with
  | none => .ok none
  | some previous => prior_plan rt previous

/-- The scratch and the plan of the earlier job can be read, its baseline has a mask, and nothing
its scratch has in a hole is refused. -/
structure Harmless (rt : Runtime) (node : Node) : Prop where
  offers : ∃ work, offered C rt node = .ok work ∧
    ∀ proofs, work = some proofs → ∀ proof ∈ proofs, validate_hole_replacement C proof = .ok ()
  plans : ∃ plan, planned rt node = .ok plan

/-- The earlier work that may be carried over. -/
def admissible (rt : Runtime) (node : Node) : Option (List Text) :=
  match offered C rt node with
  | .error _ => none
  | .ok work => work.filter fun proofs => ∀ proof ∈ proofs, validate_hole_replacement C proof = .ok ()

/-- The next job is prepared, and its scratch is rendered with the admissible work, or from
the baseline when there is none. -/
def Prepared (rt : Runtime) (node : Node) (document : SourceDocument) (prompt : String) : Prop :=
  ∃ ref context rt' source, Prog.calm (new_job C region .prover (some node) prompt) rt =
      (.ok (ref, context), rt') ∧
    declaration_source C document node (admissible C rt node) = .ok source ∧
    rt'.files.get? (context.job_id, .scratch) = some (.text source)

end Scratch

theorem latest_source_eq (document : SourceDocument) (node : Node) (rt : Runtime) :
    latest_source C document node rt (previous_job rt.jobs node) =
      (work_source C document node (offered C rt node)).bind fun source => (planned rt node).map fun _ => source := by
  rw [offered, planned]
  cases previous_job rt.jobs node with
  | none => rfl
  | some previous => rfl

/-- What is offered has a proof for each hole. -/
theorem length_offered {rt : Runtime} {node : Node} {proofs : List Text}
    (h : offered C rt node = .ok (some proofs)) : proofs.length = node.holes.length := by
  rw [offered] at h
  split at h
  · cases h
  · rename_i previous _
    rw [carried] at h
    split at h
    · cases h
    · cases h
    · rename_i work _
      cases hextract : extract_scratch_replacements C work.1 work.2 previous.scratch_holes with
      | error e =>
        rw [hextract] at h
        cases h
      | ok found =>
        rw [hextract] at h
        have hfilter := Option.filter_eq_some_iff.mp (Except.ok.inj h)
        exact (of_decide_eq_true hfilter.2).2

variable {rt : Runtime} {node : Node} {document : SourceDocument} {before : Text} {spans : List (Nat × Nat)}

/-- Harmless work is carried over when it is admissible. -/
theorem latest_source_harmless (h : Assignable C rt node document before spans)
    (hharmless : Harmless C rt node) :
    ∃ source, latest_source C document node rt (previous_job rt.jobs node) = .ok source ∧
      declaration_source C document node (admissible C rt node) = .ok (source.getD before) := by
  obtain ⟨⟨work, hoffered, hvalid⟩, plan, hplan⟩ := hharmless
  rw [latest_source_eq, admissible, hoffered, hplan]
  cases work with
  | none => exact ⟨none, rfl, h.renders⟩
  | some proofs =>
    obtain ⟨source, hsource⟩ := (declaration_source_ok h.renders h.scans h.opened h.distinct
      (length_offered hoffered)).mpr (hvalid proofs rfl)
    refine ⟨some source, by simp only [work_source, hsource]; rfl, ?_⟩
    have hfilter : (some proofs).filter
        (fun proofs => decide (∀ proof ∈ proofs, validate_hole_replacement C proof = .ok ())) = some proofs := by
      rw [Option.filter_some, if_pos (decide_eq_true (hvalid proofs rfl))]
    simp only [hfilter]
    exact hsource

/-- Harmful work raises. -/
theorem latest_source_harmful (h : Assignable C rt node document before spans)
    (hharmful : ¬ Harmless C rt node) :
    ∃ e, latest_source C document node rt (previous_job rt.jobs node) = .error e := by
  rw [latest_source_eq]
  cases hoffered : offered C rt node with
  | error e => exact ⟨e, rfl⟩
  | ok work =>
    cases hplan : planned rt node with
    | error e =>
      -- Whatever the scratch has, its plan cannot be read.
      cases work with
      | none => exact ⟨e, rfl⟩
      | some proofs =>
        cases hsource : declaration_source C document node (some proofs) with
        | error e => exact ⟨e, by simp only [work_source, hsource]; rfl⟩
        | ok source => exact ⟨e, by simp only [work_source, hsource]; rfl⟩
    | ok plan =>
      cases work with
      | none => exact absurd ⟨⟨none, hoffered, fun proofs hno => by cases hno⟩, plan, hplan⟩ hharmful
      | some proofs =>
        cases hsource : declaration_source C document node (some proofs) with
        | error e => exact ⟨e, by simp only [work_source, hsource]; rfl⟩
        | ok source =>
          have hvalid := (declaration_source_ok h.renders h.scans h.opened h.distinct
            (length_offered hoffered)).mp ⟨source, hsource⟩
          refine absurd ⟨⟨some proofs, hoffered, fun proofs' heq => ?_⟩, plan, hplan⟩ hharmful
          cases heq
          exact hvalid

/-- What the jobs are counted by, when it does not see what is assigned. -/
theorem map_updateJob {α : Type} {g : Job → α} {f : Job → Job} (h : ∀ job, g (f job) = g job) (ref : Nat)
    (rt : Runtime) : (rt.updateJob ref f).jobs.map g = rt.jobs.map g := by
  refine List.ext_getElem? fun n => ?_
  rw [List.getElem?_map, List.getElem?_map, Runtime.updateJob, List.getElem?_modify]
  cases rt.jobs[n]? with
  | none => rfl
  | some job =>
    show some (g (if ref = n then f job else job)) = some (g job)
    split
    · rw [h]
    · rfl

theorem Affords.extended (h : Affords rt) (ref : Nat) : Affords (rt.updateJob ref Job.extended) := by
  have hany : (rt.updateJob ref Job.extended).jobs.any Job.unmetered = rt.jobs.any Job.unmetered := by
    have hmap := map_updateJob (g := Job.unmetered) (f := Job.extended) (fun _ => rfl) ref rt
    simpa [List.any_map, Function.comp_def] using congrArg (·.any id) hmap
  refine ⟨h.calls, ?_, fun limit hlimit => ?_⟩
  · rw [hany]
    exact h.metered
  · rw [map_updateJob (f := Job.extended) (fun _ => rfl)]
    exact h.tokens limit hlimit

theorem id_updateJob {f : Job → Job} (hf : ∀ job, (f job).id = job.id) (ref : Nat) (rt : Runtime) :
    (rt.updateJob ref f).jobs[ref]?.elim "" (·.id) = rt.jobs[ref]?.elim "" (·.id) := by
  rw [Runtime.updateJob, List.getElem?_modify_eq]
  cases rt.jobs[ref]? with
  | none => rfl
  | some job => exact hf job

theorem calm_reserve_call (h : Affords rt) (ref : Nat) :
    ∃ rt', Prog.calm (reserve_call ref) rt = (.ok 1, rt') ∧ rt'.files = rt.files ∧
      rt'.jobs[ref]?.elim "" (·.id) = rt.jobs[ref]?.elim "" (·.id) := by
  simp only [reserve_call, Prog.calm_bind, calm_reserve h, Prog.calm_modify, ne_eq, not_true_eq_false,
    if_false, Prog.calm_pure]
  exact ⟨_, rfl, rfl, id_updateJob (by exact fun _ => rfl) ref _⟩

/-- A resumed job reads its scratch only to show it. -/
theorem calm_resumed_job (region : Text → String → Text) {ref : Nat} {job : Job} {old : Text}
    (hadmits : Admits rt .prover) (hresume : rt.resume_jobs.get? node.id = some ref)
    (hjob : rt.jobs[ref]? = some job)
    (hbaseline : (rt.files.get? (job.id, .source_before)).bind Entry.content = some (.ok old)) (prompt : String) :
    ∃ context rt', Prog.calm (new_job C region .prover (some node) prompt) rt = (.ok (ref, context), rt') := by
  have hresumed : rt.resumed .prover (some node) prompt = some ref := hresume
  have hgroup : ¬ role_group .prover = .orchestrator := by decide
  have hjob' : rt.jobs[ref]?.elim "" (·.id) = job.id := by
    rw [hjob]
    rfl
  obtain ⟨rt₁, hcall, hfiles, hid⟩ := calm_reserve_call (hadmits.toAffords.extended ref) ref
  have hid₁ : (rt₁.updateJob ref Job.restarted).jobs[ref]?.elim "" (·.id) = job.id := by
    rw [id_updateJob (f := Job.restarted) fun _ => rfl, hid, id_updateJob (f := Job.extended) fun _ => rfl,
      hjob']
  have hbaseline₁ : ((rt₁.updateJob ref Job.restarted).files.get? (job.id, .source_before)).bind
      Entry.content = some (.ok old) := by
    show (rt₁.files.get? _).bind _ = _
    rw [hfiles]
    exact hbaseline
  simp only [new_job, Prog.calm_bind, Prog.calm_get, Prog.calm_handle, prepare_job,
    calm_require_capacity hadmits.sessions, hresumed, if_neg hgroup, resume_node_job, Prog.calm_modify,
    ensure_active, Prog.calm_fault, hcall, hid₁, hbaseline₁, checked, Except.mapError, Prog.calm_ofExcept, collect_context]
  exact ⟨_, _, rfl⟩

/-- **Untrusted scratch**: a fresh job of a node is prepared just when the scratch of its
latest job is harmless; a resumed job is prepared whatever its scratch holds. -/
theorem new_job_prepared (region : Text → String → Text) (hadmits : Admits rt .prover)
    (h : Assignable C rt node document before spans) (prompt : String) :
    (rt.resume_jobs.get? node.id = none →
      (Prepared C region rt node document prompt ↔ Harmless C rt node)) ∧
    ∀ ref job old, rt.resume_jobs.get? node.id = some ref → rt.jobs[ref]? = some job →
      (rt.files.get? (job.id, .source_before)).bind Entry.content = some (.ok old) →
      ∃ context rt', Prog.calm (new_job C region .prover (some node) prompt) rt =
        (.ok (ref, context), rt') := by
  refine ⟨fun hresume => ?_, fun ref job old hresume hjob hbaseline =>
    calm_resumed_job region hadmits hresume hjob hbaseline prompt⟩
  obtain ⟨hbad, hgood⟩ := calm_new_job region hadmits h hresume prompt
  constructor
  · rintro ⟨ref, context, rt', source, hrun, -⟩
    by_contra hharmful
    obtain ⟨e, he⟩ := latest_source_harmful h hharmful
    have hraised := hbad e he
    rw [hrun] at hraised
    cases hraised
  · intro hharmless
    obtain ⟨source, hsource, hrendered⟩ := latest_source_harmless h hharmless
    obtain ⟨ref, context, rt', hrun, -, hscratch⟩ := hgood source hsource
    exact ⟨ref, context, rt', _, hrun, hrendered, hscratch⟩

/-! ### A node and its second job -/

def goal : Node := { id := "n_1", name := "t", file := "T.lean", original := true, holes := [0] }

def goalDocument : SourceDocument := { path := "T.lean", baseline := "theorem t : T := sorry\n".toList }

def firstJob : Job where
  id := "prover_00001"
  node_id := "n_1"
  role := .prover
  status := .completed
  api_calls := 1
  api_budget := 1
  reserved_calls := 1
  previous_api_calls := 0
  accounted := true
  scratch_holes := [0]

/-- The controller after the first job of the node left this scratch. -/
def afterFirst (scratch : Text) : Runtime where
  config := {}
  dag := { nodes := [goal], roots := ["n_1"] }
  documents := Dict.empty.set "T.lean" goalDocument
  jobs := [firstJob]
  consumed := 1
  files := (Dict.empty.set ("prover_00001", .source_before) (.text goalDocument.baseline)).set
    ("prover_00001", .scratch) (.text scratch)

theorem goal_admits (scratch : Text) : Admits (afterFirst scratch) .prover := by
  refine ⟨⟨?_, Or.inl rfl, ?_⟩, rfl⟩
  · rintro limit ⟨⟩
  · rintro limit ⟨⟩

theorem goal_assignable (scratch : Text) : Assignable .ascii (afterFirst scratch) goal goalDocument
    goalDocument.baseline [(17, 22)] := by
  refine ⟨rfl, by decide +kernel, by decide +kernel, by decide, by decide, ?_⟩
  show ∀ job ∈ [firstJob], job.id ≠ job_name .prover 2
  decide +kernel

/-- Partial work is carried over. -/
theorem goal_prepared : Prepared .ascii (fun text _ => text)
    (afterFirst "theorem t : T := by simp; sorry\n".toList) goal goalDocument "" := by
  refine ((new_job_prepared (fun text _ => text) (goal_admits _) (goal_assignable _) "").1 rfl).mpr
    ⟨⟨some ["by simp; sorry".toList], by decide +kernel, ?_⟩, none, rfl⟩
  rintro proofs ⟨⟩
  decide +kernel

/-- A command in the hole of the earlier scratch aborts the next job of the node. -/
theorem command_aborts :
    Admits (afterFirst "theorem t : T := trivial\nend\n".toList) .prover ∧
    Assignable .ascii (afterFirst "theorem t : T := trivial\nend\n".toList) goal goalDocument
      goalDocument.baseline [(17, 22)] ∧
    (Prog.calm (new_job .ascii (fun text _ => text) .prover (some goal) "")
      (afterFirst "theorem t : T := trivial\nend\n".toList)).1 =
        .error (.value_error ⟨"a sorry replacement cannot introduce command 'end'"⟩) ∧
    ¬ Prepared .ascii (fun text _ => text) (afterFirst "theorem t : T := trivial\nend\n".toList)
      goal goalDocument "" := by
  have hraised : (Prog.calm (new_job .ascii (fun text _ => text) .prover (some goal) "")
      (afterFirst "theorem t : T := trivial\nend\n".toList)).1 =
        .error (.value_error ⟨"a sorry replacement cannot introduce command 'end'"⟩) := by
    decide +kernel
  refine ⟨goal_admits _, goal_assignable _, hraised, ?_⟩
  rintro ⟨ref, context, rt', source, hrun, -⟩
  rw [hrun] at hraised
  cases hraised

end LeanFlow.Jobs
