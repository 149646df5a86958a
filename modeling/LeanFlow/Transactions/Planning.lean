import LeanFlow.Transactions.Resuming

/-! A planning transaction: the journal, any sequence of writes and compilations, the commit.

The journal holds, for every path it names, what the file was before, and every contents
the file may have been given. `Covers` says so of the files at any moment, also in the
middle of a recovery; `Rest` says what the files are between two steps. A step that fails
may leave more in the journal in memory than in the one on disk: `Held` says so of both. -/
namespace LeanFlow.Transactions
open General Goals Source

/-! ### The transaction -/

/-- A step between the journal and the commit. -/
inductive PlanStep where
  | write (path : String) (after expected_before : Option Text) (require_absent : Bool) (fails : WriteStep → Bool)
  | compile (file : String) (fails : Bool) (artifact : Option Text)
  | change (f : List Change → List Change)
  | publish (fails : Bool) (shown : Node → NodeStatus)
  /-- Anything else on the way, which may raise. -/
  | call (raised : Option Raised)

/-- The calls around the steps that may fail. -/
structure PlanFails where
  journal : Bool
  active : Bool
  commit : StorePart → Bool
  unlink : Bool
  recover : RecoverStep → Bool
  rolled_back : Bool

structure Plan where
  C : CharClass
  sha256 : Text → String
  max_nodes : Nat
  /-- The length of a journal's JSON text. -/
  size : MaterializationJournal → Nat
  id : String
  start : World
  steps : List PlanStep
  documents : Documents
  dag : Dag
  retired : List Node
  /-- The records of the changes, no longer staged. -/
  unstage : List Change → List Change

section Program

variable (C : CharClass) (size : MaterializationJournal → Nat)

/-- A compilation replaces its artifact only when the compiler accepts the module. -/
def plan_step (journal : MaterializationJournal) : PlanStep → Controller MaterializationJournal
  | .write path after expected_before require_absent fails =>
    materialized_write C size fails journal path after expected_before require_absent
  | .compile file fails artifact => do
    let journal ← record_compilation size fails journal file
    match artifact with
    | none => return journal
    | some artifact => do
      Prog.modify (World.writeFile (artifact_path file) artifact)
      return journal
  | .change f => do
    Prog.modify (World.setChanges f)
    return journal
  | .publish fails shown => do
    publish fails shown
    return journal
  | .call none => return journal
  | .call (some raised) => .raise raised

/-- `assert_current` of the new documents, then the new graph in memory. -/
def install_plan (p : Plan) (fails : PlanFails) : Controller Unit := do
  let w ← Prog.get
  Prog.ofExcept ({ w with documents := p.documents }.sources C)
  failing fails.active (.infrastructure "interrupted" "")
  Prog.modify fun w => { w with documents := p.documents }
  let w ← Prog.get
  Prog.ofExcept ({ w with dag := p.dag }.locations C)
  Prog.modify fun w => { w with state := { w.state with retired_nodes := w.state.retired_nodes ++ p.retired } }
  Prog.modify fun w => { w with dag := p.dag }
  Prog.modify (World.setChanges p.unstage)

/-- The record of the path of a staged change, if there is one. -/
def find_prior (change : Change) : List Change → Except Raised (Option Nat)
  | [] => .ok none
  | changes =>
    match change.path with
    | none => .error (.key_error "path")
    | some path => find_change path changes

/-- What was staged is noted as rolled back, in the record of its path or in one of its own. -/
def record_rolled_back (change : Change) : Controller Unit := do
  let w ← Prog.get
  match ← Prog.ofExcept (find_prior change w.state.changes) with
  | none => Prog.modify (World.setChanges fun changes =>
      changes ++ [{ change with status := some "rolled_back", pending := some false }])
  | some i => Prog.modify (World.setChanges fun changes => changes.modify i fun prior =>
      { prior with last_attempt := some ("rolled_back", change.agent_id.getD "orchestrator") })

/-- The handler of `_materialize`: it recovers by the journal in memory, as the failed step left it. -/
def roll_back_plan (fails : PlanFails) (shown : Node → NodeStatus) (journal : MaterializationJournal) (error : Raised) :
    Controller Unit := do
  let w ← Prog.get
  let staged := w.state.changes.filter (·.pending.getD false)
  Prog.handle rollback_failed (recover_materialization fails.recover shown (w.planning.getD journal))
  staged.forM record_rolled_back
  publish fails.rolled_back shown
  .raise error

/-- `_materialize`. -/
def plan_transaction (p : Plan) (fails : PlanFails) (shown : Node → NodeStatus) : Controller Unit := do
  assert_sources C
  let journal ← begin_materialization fails.journal p.id
  Prog.handle (roll_back_plan fails shown journal) do
    let _ ← p.steps.foldlM (plan_step C size) journal
    install_plan C p fails
    commit_materialization fails.commit fails.unlink shown

end Program

/-! ### Files -/

/-- `unlink` or `replace_source`. -/
def put_file (path : String) (content : Option Text) (files : Dict String Text) : Dict String Text :=
  match content with
  | none => files.erase path
  | some content => files.set path content

theorem get?_put_file (path : String) (content : Option Text) (files : Dict String Text) (other : String) :
    (put_file path content files).get? other = if other = path then content else files.get? other := by
  cases content with
  | none => exact Dict.get?_erase ..
  | some content => exact Dict.get?_set ..

theorem get?_put_ne {path other : String} (content : Option Text) (files : Dict String Text) (h : other ≠ path) :
    (put_file path content files).get? other = files.get? other := (get?_put_file ..).trans (if_neg h)

theorem get?_put_self (path : String) (content : Option Text) (files : Dict String Text) :
    (put_file path content files).get? path = content := (get?_put_file ..).trans (if_pos rfl)

theorem put_eq (path : String) (content : Option Text) (w : World) :
    w.put path content = { w with disk := { w.disk with files := put_file path content w.disk.files } } := by
  cases content <;> rfl

def PlanStep.effect (files : Dict String Text) : PlanStep → Dict String Text
  | .write path after _ _ _ => put_file path after files
  | .compile file _ (some artifact) => files.set (artifact_path file) artifact
  | _ => files

/-- The path a step writes. -/
def PlanStep.path : PlanStep → Option String
  | .write path _ _ _ _ => some path
  | _ => none

/-- The module a step compiles. -/
def PlanStep.file : PlanStep → Option String
  | .compile file _ _ => some file
  | _ => none

def written_paths (steps : List PlanStep) : List String := steps.filterMap PlanStep.path

def compiled_files (steps : List PlanStep) : List String := steps.filterMap PlanStep.file

/-- The files after some steps. -/
def applied (steps : List PlanStep) (files : Dict String Text) : Dict String Text := steps.foldl PlanStep.effect files

theorem applied_append (steps : List PlanStep) (step : PlanStep) (files : Dict String Text) :
    applied (steps ++ [step]) files = step.effect (applied steps files) := by
  rw [applied, List.foldl_append]
  rfl

/-- What no step writes or compiles stays as it is. -/
theorem applied_other (steps : List PlanStep) (files : Dict String Text) {path : String} (hwritten : path ∉ written_paths steps)
    (hcompiled : path ∉ (compiled_files steps).map artifact_path) : (applied steps files).get? path = files.get? path := by
  induction steps generalizing files with
  | nil => rfl
  | cons step steps ih =>
    rw [applied, List.foldl_cons]
    cases step with
    | write other after expected_before require_absent fails =>
      obtain ⟨hne, hrest⟩ := not_or.mp (List.mem_cons.not.mp hwritten)
      exact (ih _ hrest hcompiled).trans (get?_put_ne after files hne)
    | compile file fails artifact =>
      obtain ⟨hne, hrest⟩ := not_or.mp (List.mem_cons.not.mp hcompiled)
      refine (ih _ hwritten hrest).trans ?_
      cases artifact with
      | none => rfl
      | some artifact => exact Dict.get?_set_ne _ _ hne
    | change f => exact ih _ hwritten hcompiled
    | publish fails shown => exact ih _ hwritten hcompiled
    | call raised => exact ih _ hwritten hcompiled

/-! ### What the journal knows -/

namespace Plan
variable (p : Plan)

/-- What a file was when the transaction began. -/
def before (path : String) : Option Text := p.start.disk.files.get? path

/-- The artifact of a module that did not exist: recovery removes it. -/
def Stale (path : String) : Prop := ∃ file, p.before file = none ∧ generated_path file = true ∧ path = artifact_path file

/-- Everything is as it was, but for stale artifacts that may be gone. -/
def Undone (files : Dict String Text) : Prop :=
  ∀ path, files.get? path = p.before path ∨ files.get? path = none ∧ p.Stale path

/-- A journal of this transaction. -/
structure Opened (journal : MaterializationJournal) : Prop where
  id : journal.id = p.id
  dag : journal.before_dag = p.start.dag
  documents : journal.before_documents = p.start.documents
  changes : journal.before_changes = p.start.state.changes
  retired : journal.before_retired = p.start.state.retired_nodes
  compiled : ∀ file ∈ journal.compiled_modules, generated_path file = true ∧ (∃ path, safe_relative_file file = .ok path) ∧
    journal.compiled_artifacts.get? file = some (p.before (artifact_path file)) ∧
    journal.writes.get? (artifact_path file) = none
  apart : ∀ file entry, journal.writes.get? file = some entry → entry.before = none → generated_path file = true →
    journal.writes.get? (artifact_path file) = none

/-- From these files the journal leads back. -/
structure Covers (journal : MaterializationJournal) (files : Dict String Text) : Prop where
  opened : p.Opened journal
  entries : ∀ path entry, journal.writes.get? path = some entry →
    entry.before = p.before path ∧ entry.before ∈ entry.allowed ∧ files.get? path ∈ entry.allowed
  others : ∀ path, journal.writes.get? path = none → path ∉ journal.compiled_modules.map artifact_path →
    files.get? path = p.before path ∨ files.get? path = none ∧ p.Stale path

/-- The files are as documented. -/
def Current (documents : Documents) (files : Dict String Text) : Prop :=
  ∀ path document, documents.get? path = some document →
    ∃ text, document.render p.C [] = .ok text ∧ files.get? document.path = some text

/-- What the steps of a transaction keep apart. -/
structure Valid : Prop where
  compiled : ∀ file ∈ compiled_files p.steps, generated_path file = true ∧ ∃ path, safe_relative_file file = .ok path
  distinct : ((compiled_files p.steps).map artifact_path).Nodup
  written : ∀ path ∈ written_paths p.steps, path ∉ (compiled_files p.steps).map artifact_path
  apart : ∀ path ∈ written_paths p.steps, ∀ file ∈ written_paths p.steps, p.before file = none → generated_path file = true →
    path ≠ artifact_path file
  named : ∀ step ∈ p.steps, ∀ f, step = .change f → ∀ changes, Named changes → Named (f changes)
  unstaged : ∀ changes, Named changes → Named (p.unstage changes)
  changes : Named p.start.state.changes
  loads : p.start.dag.validate (max 128 p.start.dag.nodes.length) = .ok ()
  bounded : p.start.dag.validate p.max_nodes = .ok ()
  loads_new : p.dag.validate (max 128 p.dag.nodes.length) = .ok ()
  bounded_new : p.dag.validate p.max_nodes = .ok ()
  current : p.Current p.start.documents p.start.disk.files
  /-- No document is a compiled module. -/
  apart_sources : ∀ path document, p.start.documents.get? path = some document → ∀ file, document.path ≠ artifact_path file

end Plan

variable {p : Plan} {journal : MaterializationJournal} {files : Dict String Text}

/-! ### Recovery, file by file -/

/-- Any path may be put back. -/
theorem Plan.Covers.put_back (h : p.Covers journal files) (path : String) : p.Covers journal (put_file path (p.before path) files) where
  opened := h.opened
  entries other entry hentry := by
    obtain ⟨hbefore, hallowed, hfile⟩ := h.entries other entry hentry
    refine ⟨hbefore, hallowed, ?_⟩
    rw [get?_put_file]
    split
    · rw [← ‹other = path›, ← hbefore]
      exact hallowed
    · exact hfile
  others other hother hcompiled := by
    rw [get?_put_file]
    split
    · exact Or.inl (by rw [‹other = path›])
    · exact h.others other hother hcompiled

/-- The artifact of a new module goes with it. -/
theorem Plan.Covers.erase_artifact (h : p.Covers journal files) {file : String} (hnew : p.before file = none)
    (hgenerated : generated_path file = true) (hfree : journal.writes.get? (artifact_path file) = none) :
    p.Covers journal (put_file (artifact_path file) none files) where
  opened := h.opened
  entries other entry hentry := by
    have hne : other ≠ artifact_path file := fun heq => by
      rw [heq, hfree] at hentry
      cases hentry
    rw [get?_put_ne _ _ hne]
    exact h.entries other entry hentry
  others other hother hcompiled := by
    rw [get?_put_file]
    split
    · exact Or.inr ⟨rfl, file, hnew, hgenerated, ‹_›⟩
    · exact h.others other hother hcompiled

theorem Plan.Covers.put_artifact (h : p.Covers journal files) {file : String} (hfile : file ∈ journal.compiled_modules)
    (content : Option Text) : p.Covers journal (put_file (artifact_path file) content files) where
  opened := h.opened
  entries other entry hentry := by
    have hne : other ≠ artifact_path file := fun heq => by
      rw [heq, (h.opened.compiled file hfile).2.2.2] at hentry
      cases hentry
    rw [get?_put_ne _ _ hne]
    exact h.entries other entry hentry
  others other hother hcompiled := by
    have hne : other ≠ artifact_path file := fun heq => hcompiled (heq ▸ List.mem_map_of_mem hfile)
    rw [get?_put_ne _ _ hne]
    exact h.others other hother hcompiled

/-- Once every path and every artifact is back, all is undone. -/
theorem Plan.Covers.undone (h : p.Covers journal files)
    (hentries : ∀ path entry, journal.writes.get? path = some entry → files.get? path = entry.before)
    (hartifacts : ∀ file ∈ journal.compiled_modules, files.get? (artifact_path file) = p.before (artifact_path file)) :
    p.Undone files := by
  intro path
  cases hpath : journal.writes.get? path with
  | some entry => exact Or.inl ((hentries path entry hpath).trans (h.entries path entry hpath).1)
  | none =>
    by_cases hcompiled : path ∈ journal.compiled_modules.map artifact_path
    · obtain ⟨file, hfile, rfl⟩ := List.mem_map.mp hcompiled
      exact Or.inl (hartifacts file hfile)
    · exact h.others path hpath hcompiled

/-- The journal on disk, and the one in memory, which a failed step has told of one more path. -/
structure Plan.Held (p : Plan) (journal held : MaterializationJournal) (files : Dict String Text) : Prop where
  disk : p.Covers journal files
  memory : p.Covers held files
  known : ∀ path, held.writes.get? path = none → journal.writes.get? path = none

section Held
variable {held : MaterializationJournal}

theorem Plan.Covers.self (h : p.Covers journal files) : p.Held journal journal files := ⟨h, h, fun _ h => h⟩

/-- Whichever journal a recovery follows, both lead back from what it leaves. -/
theorem Plan.Held.put_back (h : p.Held journal held files) (path : String) : p.Held journal held (put_file path (p.before path) files) :=
  ⟨h.disk.put_back path, h.memory.put_back path, h.known⟩

theorem Plan.Held.erase_artifact (h : p.Held journal held files) {file : String} {entry : WriteEntry}
    (hentry : held.writes.get? file = some entry) (hnew : entry.before = none) (hgenerated : generated_path file = true) :
    p.Held journal held (put_file (artifact_path file) none files) := by
  have hbefore : p.before file = none := (h.memory.entries file entry hentry).1 ▸ hnew
  have hfree := h.memory.opened.apart file entry hentry hnew hgenerated
  exact ⟨h.disk.erase_artifact hbefore hgenerated (h.known _ hfree), h.memory.erase_artifact hbefore hgenerated hfree, h.known⟩

end Held

/-! ### The steps, file by file -/

/-- Between two steps. -/
structure Plan.Rest (p : Plan) (done : List PlanStep) (journal : MaterializationJournal) (files : Dict String Text) : Prop where
  covers : p.Covers journal files
  settled : ∀ path entry, journal.writes.get? path = some entry → files.get? path = entry.after
  files : ∀ path, files.get? path = (applied done p.start.disk.files).get? path
  written : ∀ path, path ∈ written_paths done ↔ (journal.writes.get? path).isSome = true
  compiled : ∀ file ∈ journal.compiled_modules, file ∈ compiled_files done

/-- What no step has touched yet. -/
theorem Plan.Rest.untouched {done : List PlanStep} (h : p.Rest done journal files) {path : String} (hwritten : path ∉ written_paths done)
    (hcompiled : path ∉ (compiled_files done).map artifact_path) : files.get? path = p.before path :=
  (h.files path).trans (applied_other done _ hwritten hcompiled)

theorem written_append (done : List PlanStep) (step : PlanStep) : written_paths (done ++ [step]) = written_paths done ++ step.path.toList := by
  rw [written_paths, List.filterMap_append]
  cases step <;> rfl

theorem compiled_append (done : List PlanStep) (step : PlanStep) : compiled_files (done ++ [step]) = compiled_files done ++ step.file.toList := by
  rw [compiled_files, List.filterMap_append]
  cases step <;> rfl

/-- The entry a write starts from says what the file was before the transaction, and what it is now. -/
theorem entry_before {C : CharClass} (h : p.Covers journal files) {path : String}
    (huntouched : journal.writes.get? path = none → files.get? path = p.before path) {expected_before : Option Text} {require_absent : Bool}
    {entry : WriteEntry} (hentry : journal.entry C path (files.get? path) expected_before require_absent = .ok entry) :
    entry.before = p.before path ∧ entry.before ∈ entry.allowed ∧ files.get? path ∈ entry.allowed := by
  unfold MaterializationJournal.entry at hentry
  cases hpath : journal.writes.get? path with
  | some old =>
    simp only [hpath] at hentry
    split at hentry
    · obtain rfl := Except.ok.inj hentry
      exact h.entries path old hpath
    · cases hentry
  | none =>
    simp only [hpath] at hentry
    split at hentry
    · cases hentry
    · split at hentry
      · cases hentry
      · obtain rfl := Except.ok.inj hentry
        exact ⟨huntouched hpath, List.mem_singleton_self _, List.mem_singleton_self _⟩

theorem announced_allowed (entry : WriteEntry) (after : Option Text) {content : Option Text} (h : content ∈ entry.allowed ∨ content = after) :
    content ∈ (entry.announce after).allowed := by
  unfold WriteEntry.announce
  dsimp only
  split
  · exact h.elim id fun heq => heq ▸ ‹after ∈ entry.allowed›
  · exact List.mem_append.mpr (h.imp id List.mem_singleton.mpr)

/-- The steps that are done, and the next one. -/
def Plan.Next (p : Plan) (done : List PlanStep) (step : PlanStep) : Prop := ∃ rest, p.steps = done ++ step :: rest

theorem Plan.Next.written {done : List PlanStep} {step : PlanStep} (h : p.Next done step) {path : String}
    (hpath : path ∈ written_paths done ∨ step.path = some path) : path ∈ written_paths p.steps := by
  obtain ⟨rest, hsteps⟩ := h
  rw [hsteps, written_paths, List.filterMap_append]
  refine List.mem_append.mpr (hpath.imp_right fun hstep => ?_)
  rw [List.filterMap_cons_some hstep]
  exact List.mem_cons_self ..

theorem Plan.Next.compiled {done : List PlanStep} {step : PlanStep} (h : p.Next done step) {file : String}
    (hfile : file ∈ compiled_files done ∨ step.file = some file) : file ∈ compiled_files p.steps := by
  obtain ⟨rest, hsteps⟩ := h
  rw [hsteps, compiled_files, List.filterMap_append]
  refine List.mem_append.mpr (hfile.imp_right fun hstep => ?_)
  rw [List.filterMap_cons_some hstep]
  exact List.mem_cons_self ..

/-- An artifact is compiled once. -/
theorem Plan.Next.distinct {done : List PlanStep} {step : PlanStep} (hp : p.Valid) (h : p.Next done step) {file : String}
    (hfile : step.file = some file) : artifact_path file ∉ (compiled_files done).map artifact_path := by
  obtain ⟨rest, hsteps⟩ := h
  have hdistinct := hp.distinct
  rw [hsteps, compiled_files, List.filterMap_append, List.filterMap_cons_some hfile, List.map_append, List.map_cons] at hdistinct
  exact fun hmem => (List.nodup_append.mp hdistinct).2.2 _ hmem _ (List.mem_cons_self ..) rfl

/-- The journal that announces a write. -/
def MaterializationJournal.announce (journal : MaterializationJournal) (path : String) (entry : WriteEntry) (after : Option Text) :
    MaterializationJournal := { journal with writes := journal.writes.set path (entry.announce after) }

section Write
variable {C : CharClass} {done : List PlanStep} {path : String} {after expected_before : Option Text} {require_absent : Bool}
  {fails : WriteStep → Bool} {entry : WriteEntry}

theorem Plan.Rest.entry_before (hp : p.Valid) (h : p.Rest done journal files)
    (hnext : p.Next done (.write path after expected_before require_absent fails))
    (hentry : journal.entry C path (files.get? path) expected_before require_absent = .ok entry) :
    entry.before = p.before path ∧ entry.before ∈ entry.allowed ∧ files.get? path ∈ entry.allowed := by
  refine Transactions.entry_before h.covers (fun hpath => h.untouched (fun hmem => ?_) fun hmem => ?_) hentry
  · rw [h.written, hpath] at hmem
    cases hmem
  · obtain ⟨file, hfile, rfl⟩ := List.mem_map.mp hmem
    exact hp.written _ (hnext.written (Or.inr rfl)) (List.mem_map_of_mem (hnext.compiled (Or.inl hfile)))

/-- The paths of the journal are paths of the transaction. -/
theorem Plan.Rest.paths (h : p.Rest done journal files) (hnext : p.Next done (.write path after expected_before require_absent fails))
    {other : String} (hother : ((journal.announce path entry after).writes.get? other).isSome = true) : other ∈ written_paths p.steps := by
  refine hnext.written ?_
  by_cases hsame : other = path
  · exact Or.inr (hsame ▸ rfl)
  · rw [show (journal.announce path entry after).writes.get? other = journal.writes.get? other from Dict.get?_set_ne _ _ hsame] at hother
    exact Or.inl ((h.written other).mpr hother)

/-- **Announcing a write** keeps the way back. -/
theorem Plan.Rest.announce (hp : p.Valid) (h : p.Rest done journal files) (hnext : p.Next done (.write path after expected_before require_absent fails))
    (hentry : journal.entry C path (files.get? path) expected_before require_absent = .ok entry) :
    p.Covers (journal.announce path entry after) files := by
  have hentries (other : String) (entry' : WriteEntry) (h' : (journal.announce path entry after).writes.get? other = some entry') :
      entry'.before = p.before other ∧ entry'.before ∈ entry'.allowed ∧ files.get? other ∈ entry'.allowed := by
    rw [show (journal.announce path entry after).writes.get? other = _ from Dict.get?_set ..] at h'
    split at h'
    · obtain rfl := ‹other = path›
      obtain rfl := Option.some.inj h'
      obtain ⟨hbefore, hallowed, hfile⟩ := h.entry_before hp hnext hentry
      exact ⟨hbefore, announced_allowed _ _ (Or.inl hallowed), announced_allowed _ _ (Or.inl hfile)⟩
    · exact h.covers.entries other entry' h'
  have habsent (other : String) (hother : other ∉ written_paths p.steps) : (journal.announce path entry after).writes.get? other = none := by
    rw [← Option.not_isSome_iff_eq_none]
    exact fun hsome => hother (h.paths hnext hsome)
  refine ⟨{ h.covers.opened with compiled := fun file hfile => ?_, apart := fun file entry' h' hnew hgenerated => ?_ }, hentries, ?_⟩
  · obtain ⟨hgenerated, hsafe, hrecord, -⟩ := h.covers.opened.compiled file hfile
    refine ⟨hgenerated, hsafe, hrecord, habsent _ fun hmem => hp.written _ hmem ?_⟩
    exact List.mem_map_of_mem (hnext.compiled (Or.inl (h.compiled file hfile)))
  · refine habsent _ fun hmem => ?_
    exact hp.apart _ hmem file (h.paths hnext (by rw [h']; rfl)) ((hentries file entry' h').1 ▸ hnew) hgenerated rfl
  · intro other hother hcompiled
    refine h.covers.others other ?_ hcompiled
    rw [show (journal.announce path entry after).writes.get? other = _ from Dict.get?_set ..] at hother
    split at hother
    · cases hother
    · exact hother

/-- Before it is on disk, the announcement is in memory only. -/
theorem Plan.Rest.announced (hp : p.Valid) (h : p.Rest done journal files) (hnext : p.Next done (.write path after expected_before require_absent fails))
    (hentry : journal.entry C path (files.get? path) expected_before require_absent = .ok entry) :
    p.Held journal (journal.announce path entry after) files := by
  refine ⟨h.covers, h.announce hp hnext hentry, fun other hother => ?_⟩
  rw [show (journal.announce path entry after).writes.get? other = _ from Dict.get?_set ..] at hother
  split at hother
  · cases hother
  · exact hother

/-- **A write** that was announced. -/
theorem Plan.Rest.write (hp : p.Valid) (h : p.Rest done journal files) (hnext : p.Next done (.write path after expected_before require_absent fails))
    (hentry : journal.entry C path (files.get? path) expected_before require_absent = .ok entry) :
    p.Rest (done ++ [.write path after expected_before require_absent fails]) (journal.announce path entry after) (put_file path after files) := by
  have hcovers := h.announce hp hnext hentry
  have hget (other : String) : (journal.announce path entry after).writes.get? other =
      if other = path then some (entry.announce after) else journal.writes.get? other := Dict.get?_set ..
  refine ⟨⟨hcovers.opened, fun other entry' h' => ?_, fun other hother hcompiled => ?_⟩, fun other entry' h' => ?_, fun other => ?_, fun other => ?_, ?_⟩
  · obtain ⟨hbefore, hallowed, hfile⟩ := hcovers.entries other entry' h'
    refine ⟨hbefore, hallowed, ?_⟩
    rw [get?_put_file]
    split
    · rw [hget, if_pos ‹_›] at h'
      obtain rfl := Option.some.inj h'
      exact announced_allowed _ _ (Or.inr rfl)
    · exact hfile
  · have hne : other ≠ path := fun heq => by rw [hget, if_pos heq] at hother; cases hother
    rw [get?_put_ne _ _ hne]
    exact hcovers.others other hother hcompiled
  · rw [hget] at h'
    rw [get?_put_file]
    split
    · rw [if_pos ‹_›] at h'
      obtain rfl := Option.some.inj h'
      rfl
    · rw [if_neg ‹_›] at h'
      exact h.settled other entry' h'
  · rw [applied_append, PlanStep.effect, get?_put_file, get?_put_file, h.files]
  · rw [written_append, hget]
    by_cases hsame : other = path
    · simp [hsame, PlanStep.path]
    · simp [hsame, PlanStep.path, h.written]
  · intro file hfile
    rw [compiled_append]
    exact List.mem_append_left _ (h.compiled file hfile)

end Write

section Compile
variable {done : List PlanStep} {file : String} {fails : Bool} {artifact : Option Text}

/-- The journal that records an artifact. -/
def MaterializationJournal.record (journal : MaterializationJournal) (file : String) (before : Option Text) : MaterializationJournal :=
  { journal with
    compiled_modules := journal.compiled_modules ++ [file]
    compiled_artifacts := journal.compiled_artifacts.set file before }

/-- An artifact that is about to be replaced is as it was. -/
theorem Plan.Rest.artifact_before (hp : p.Valid) (h : p.Rest done journal files) (hnext : p.Next done (.compile file fails artifact)) :
    files.get? (artifact_path file) = p.before (artifact_path file) := by
  refine h.untouched (fun hmem => ?_) (hnext.distinct hp rfl)
  exact hp.written _ (hnext.written (Or.inl hmem)) (List.mem_map_of_mem (hnext.compiled (Or.inr rfl)))

/-- **Recording an artifact** keeps the way back. -/
theorem Plan.Rest.record (hp : p.Valid) (h : p.Rest done journal files) (hnext : p.Next done (.compile file fails artifact)) :
    p.Covers (journal.record file (files.get? (artifact_path file))) files := by
  refine ⟨{ h.covers.opened with compiled := fun other hother => ?_ }, h.covers.entries, fun path hpath hcompiled => ?_⟩
  · by_cases hsame : other = file
    · subst hsame
      obtain ⟨hgenerated, hsafe⟩ := hp.compiled other (hnext.compiled (Or.inr rfl))
      refine ⟨hgenerated, hsafe, ?_, ?_⟩
      · exact (Dict.get?_set_self ..).trans (congrArg some (h.artifact_before hp hnext))
      · rw [← Option.not_isSome_iff_eq_none]
        intro hsome
        exact hp.written _ (hnext.written (Or.inl ((h.written _).mpr hsome))) (List.mem_map_of_mem (hnext.compiled (Or.inr rfl)))
    · obtain ⟨hgenerated, hsafe, hrecord, hwrites⟩ := h.covers.opened.compiled other
        ((List.mem_append.mp hother).resolve_right fun hmem => hsame (List.mem_singleton.mp hmem))
      exact ⟨hgenerated, hsafe, (Dict.get?_set_ne _ _ hsame).trans hrecord, hwrites⟩
  · refine h.covers.others path hpath fun hmem => hcompiled ?_
    show path ∈ (journal.compiled_modules ++ [file]).map artifact_path
    rw [List.map_append]
    exact List.mem_append_left _ hmem

theorem Plan.Rest.recorded (hp : p.Valid) (h : p.Rest done journal files) (hnext : p.Next done (.compile file fails artifact)) :
    p.Held journal (journal.record file (files.get? (artifact_path file))) files :=
  ⟨h.covers, h.record hp hnext, fun _ h => h⟩

/-- **A compilation** whose artifact was recorded. -/
theorem Plan.Rest.compile (hp : p.Valid) (h : p.Rest done journal files) (hnext : p.Next done (.compile file fails artifact)) :
    p.Rest (done ++ [.compile file fails artifact]) (journal.record file (files.get? (artifact_path file)))
      (PlanStep.effect files (.compile file fails artifact)) := by
  have hcovers := h.record hp hnext
  have hmem : file ∈ (journal.record file (files.get? (artifact_path file))).compiled_modules :=
    List.mem_append_right _ (List.mem_singleton_self _)
  have heffect : PlanStep.effect files (.compile file fails artifact) = files ∨
      ∃ content, PlanStep.effect files (.compile file fails artifact) = put_file (artifact_path file) content files := by
    cases artifact with
    | none => exact Or.inl rfl
    | some artifact => exact Or.inr ⟨some artifact, rfl⟩
  have hother (path : String) (hpath : path ≠ artifact_path file) :
      (PlanStep.effect files (.compile file fails artifact)).get? path = files.get? path := by
    rcases heffect with heq | ⟨content, heq⟩
    · rw [heq]
    · rw [heq, get?_put_ne _ _ hpath]
  refine ⟨?_, fun path entry hentry => ?_, fun path => ?_, fun path => ?_, ?_⟩
  · rcases heffect with heq | ⟨content, heq⟩
    · rw [heq]
      exact hcovers
    · rw [heq]
      exact hcovers.put_artifact hmem content
  · refine (hother path fun heq => ?_).trans (h.settled path entry hentry)
    rw [heq, show (journal.record _ _).writes.get? (artifact_path file) = none from (hcovers.opened.compiled file hmem).2.2.2] at hentry
    cases hentry
  · rw [applied_append]
    cases artifact with
    | none => exact h.files path
    | some artifact =>
      show (files.set _ _).get? path = ((applied done p.start.disk.files).set _ _).get? path
      rw [Dict.get?_set, Dict.get?_set, h.files]
  · rw [written_append]
    exact (by simp [PlanStep.path] : path ∈ written_paths done ++ (PlanStep.compile file fails artifact).path.toList ↔ path ∈ written_paths done).trans
      (h.written path)
  · intro other hother'
    rw [compiled_append]
    exact List.mem_append.mpr ((List.mem_append.mp hother').imp (h.compiled other) fun hmem => by simpa [PlanStep.file] using hmem)

end Compile

/-- A step that changes no file. -/
theorem Plan.Rest.skip {done : List PlanStep} {step : PlanStep} (h : p.Rest done journal files) (hpath : step.path = none)
    (hfile : step.file = none) : p.Rest (done ++ [step]) journal files := by
  refine ⟨h.covers, h.settled, fun path => ?_, fun path => ?_, ?_⟩
  · rw [applied_append, h.files]
    cases step with
    | write => cases hpath
    | compile => cases hfile
    | change => rfl
    | publish => rfl
    | call => rfl
  · rw [written_append, hpath, Option.toList_none, List.append_nil]
    exact h.written path
  · rw [compiled_append, hfile, Option.toList_none, List.append_nil]
    exact h.compiled

end LeanFlow.Transactions
