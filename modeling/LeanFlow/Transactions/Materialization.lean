import LeanFlow.Transactions.State

/-! Planning transactions: every write is journaled before it is made.

The journal keeps, for each path, its first contents and every contents the
transaction may have left there; recovery validates all paths before it changes
any of them. -/
namespace LeanFlow.Transactions
open General Goals Source

variable (C : CharClass)

/-- `str(Path(file))`. -/
def normal_path (file : String) : String := String.ofList (['/'].intercalate (path_parts file))

/-- `.lake/build/lib/lean/<module>.olean`. -/
def artifact_path (file : String) : String :=
  let path := (normal_path file).toList
  ".lake/build/lib/lean/" ++ String.ofList (path.take (path.length - 5)) ++ ".olean"

/-- Recovery treats only generated modules as its own. -/
def generated_path (file : String) : Bool :=
  "LeanFlowProofs/".toList.isPrefixOf file.toList && lean_suffix file

/-- Planning files are bounded, and so is their journal. -/
def fileLimit : Nat := 8 * 1024 * 1024

def journalLimit : Nat := 64 * 1024 * 1024

section Steps

-- `size` is the length of the journal's JSON text.
variable (size : MaterializationJournal → Nat)

def begin_materialization (fails : Bool) (id : String) : Controller MaterializationJournal := do
  let w ← Prog.get
  if w.disk.journal.isSome then
    .raise (.value_error ⟨"An earlier source transaction must be recovered before materialization"⟩)
  else do
    let journal : MaterializationJournal := {
      id := id
      before_dag := w.dag
      before_documents := w.documents
      before_changes := w.state.changes
      before_retired := w.state.retired_nodes }
    failing fails .os_error
    Prog.modify (World.setJournal (some (.materialization journal)))
    Prog.modify (World.hold journal)
    return journal

/-- The entry of a path after one more write is announced. -/
def WriteEntry.announce (entry : WriteEntry) (after : Option Text) : WriteEntry :=
  { entry with
    after := after
    allowed := if after ∈ entry.allowed then entry.allowed else entry.allowed ++ [after] }

/-- The journal entry of a path before a write, when its file is as recorded. -/
def MaterializationJournal.entry (journal : MaterializationJournal) (path : String) (current : Option Text)
    (expected_before : Option Text) (require_absent : Bool) : Except Raised WriteEntry :=
  match journal.writes.get? path with
  | some entry => if current = entry.after then .ok entry else .error (.source_conflict path)
  | none =>
    let recorded : Except ValueError (Option Text) := match journal.before_documents.get? path with
      | none => .ok expected_before
      | some document => (document.render C []).map some
    match recorded with
    | .error e => .error (.value_error e)
    | .ok expected =>
      if (require_absent ∧ current ≠ none) ∨ (expected ≠ none ∧ current ≠ expected) then
        .error (.source_conflict path)
      else .ok { before := current, allowed := [current], after := current }

/-- The two calls of a write that may fail. -/
inductive WriteStep where
  | journal
  | replace
deriving DecidableEq

def World.put (path : String) (content : Option Text) (w : World) : World :=
  match content with
  | none => w.unlink path
  | some content => w.writeFile path content

/-- Record the write in the caller's journal and durably, then make it; that journal is the result. -/
def materialized_write (fails : WriteStep → Bool) (journal : MaterializationJournal) (path : String)
    (after : Option Text) (expected_before : Option Text) (require_absent : Bool) :
    Controller MaterializationJournal := do
  let w ← Prog.get
  let current := w.disk.files.get? path
  if current.any (fileLimit < ·.length) ∨ after.any (fileLimit < ·.length) then
    .raise (.value_error ⟨"Planning transaction file exceeds its 8 MiB recovery limit"⟩)
  else do
    let entry ← Prog.ofExcept (journal.entry C path current expected_before require_absent)
    let journal := { journal with writes := journal.writes.set path (entry.announce after) }
    Prog.modify (World.hold journal)
    if journalLimit < size journal then
      .raise (.value_error ⟨"Planning transaction exceeds its 64 MiB recovery limit"⟩)
    else do
      failing (fails .journal) .os_error
      Prog.modify (World.setJournal (some (.materialization journal)))
      let w ← Prog.get
      if w.disk.files.get? path ≠ current then .raise (.source_conflict path)
      else do
        failing (fails .replace) .os_error
        Prog.modify (World.put path after)
        return journal

/-- Snapshot a generated module's artifact before a compilation can replace it. -/
def record_compilation (fails : Bool) (journal : MaterializationJournal) (file : String) :
    Controller MaterializationJournal := do
  let w ← Prog.get
  let before := w.disk.files.get? (artifact_path file)
  if before.any (fileLimit < ·.length) then
    .raise (.value_error ⟨"Planning transaction artifact exceeds its 8 MiB recovery limit"⟩)
  else do
    let journal := { journal with
      compiled_modules := journal.compiled_modules ++ [file]
      compiled_artifacts := journal.compiled_artifacts.set file before }
    Prog.modify (World.hold journal)
    if journalLimit < size journal then
      .raise (.value_error ⟨"Planning transaction exceeds its 64 MiB recovery limit"⟩)
    else do
      failing fails .os_error
      Prog.modify (World.setJournal (some (.materialization journal)))
      return journal

end Steps

/-! ### Recovery -/

/-- The artifacts to restore, when every recorded module is a generated one. -/
def MaterializationJournal.artifacts (journal : MaterializationJournal) :
    Except Raised (List (String × Option Text)) :=
  journal.compiled_modules.mapM fun file =>
    if generated_path file then
      match safe_relative_file file with
      | .error e => .error (.value_error e)
      | .ok _ => .ok (artifact_path file, (journal.compiled_artifacts.get? file).getD none)
    else .error (.value_error ⟨"Invalid helper compilation journal entry"⟩)

/-- The contents a path may have: the last one of a committed transaction, else any that was recorded. -/
def WriteEntry.admits (committed : Bool) (entry : WriteEntry) (content : Option Text) : Bool :=
  if committed then content == entry.after else entry.allowed.contains content

/-- Validate every path before any is changed. -/
def MaterializationJournal.validate (journal : MaterializationJournal) (committed : Bool) (w : World) :
    Except Raised Unit :=
  journal.writes.items.forM fun item =>
    if item.2.admits committed (w.disk.files.get? item.1) then .ok () else .error (.source_conflict item.1)

/-- The calls of a recovery that may fail. -/
inductive RecoverStep where
  | replace (path : String)
  | artifact (path : String)
  | persist (part : StorePart)
  | unlink
deriving DecidableEq

/-- Put one path back; the artifact of a new generated module goes with it. -/
def restore_file (fails : RecoverStep → Bool) (observed : World) (item : String × WriteEntry) : Controller Unit := do
  let w ← Prog.get
  if w.disk.files.get? item.1 ≠ observed.disk.files.get? item.1 then .raise (.source_conflict item.1)
  else do
    failing (fails (.replace item.1)) .os_error
    Prog.modify (World.put item.1 item.2.before)
    if item.2.before = none ∧ generated_path item.1 then do
      failing (fails (.artifact item.1)) .os_error
      Prog.modify (World.unlink (artifact_path item.1))
    else return

def restore_artifact (fails : RecoverStep → Bool) (artifact : String × Option Text) : Controller Unit := do
  failing (fails (.artifact artifact.1)) .os_error
  Prog.modify (World.put artifact.1 artifact.2)

/-- The graph, the documents and the records of the journal, in memory. -/
def MaterializationJournal.reset (journal : MaterializationJournal) (w : World) : World :=
  { w with
    documents := journal.before_documents
    dag := journal.before_dag
    state := { w.state with changes := journal.before_changes, retired_nodes := journal.before_retired } }

/-- Undo the writes in reverse order, then the compilations, then the graph. -/
def undo_materialization (fails : RecoverStep → Bool) (shown : Node → NodeStatus)
    (journal : MaterializationJournal) (artifacts : List (String × Option Text)) (observed : World) :
    Controller Unit := do
  journal.writes.items.reverse.forM (restore_file fails observed)
  artifacts.forM (restore_artifact fails)
  Prog.modify journal.reset
  persist (fun part => fails (.persist part)) shown

def recover_materialization (fails : RecoverStep → Bool) (shown : Node → NodeStatus)
    (journal : MaterializationJournal) : Controller Unit := do
  let w ← Prog.get
  let committed := decide (w.state.source_transaction = some journal.id)
  let artifacts ← Prog.ofExcept journal.artifacts
  let w ← Prog.get
  Prog.ofExcept (journal.validate committed w)
  (if committed then pure () else undo_materialization fails shown journal artifacts w)
  failing (fails .unlink) .os_error
  Prog.modify (World.setJournal none)

/-- Publish one graph and source checkpoint, then drop the journal. -/
def commit_materialization (fails : StorePart → Bool) (unlink_fails : Bool) (shown : Node → NodeStatus) :
    Controller Unit := do
  let w ← Prog.get
  match w.disk.journal with
  | none => return
  | some (.proof _) => .raise (.value_error ⟨"Unexpected source transaction during planning commit"⟩)
  | some (.materialization journal) =>
    Prog.modify fun w => { w with state := { w.state with source_transaction := some journal.id } }
    persist fails shown
    failing unlink_fails .os_error
    Prog.modify (World.setJournal none)

end LeanFlow.Transactions
