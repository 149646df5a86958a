import LeanFlow.Transactions.Materialization

/-! Installing a checked proof.

A candidate the verifier accepted is put into the document, journaled, written to the
canonical source, compiled and published. An exception after the journal rolls the
source back; a crash leaves the journal, and the next resume decides by the
transaction id in the durable state. -/
namespace LeanFlow.Transactions
open General Goals Source

section Install

variable (C : CharClass) (sha256 : Text → String)

/-! ### Records of changes -/

/-- `next(... if change["path"] == path)`; a record without a path raises. -/
def find_change (path : String) : List Change → Except Raised (Option Nat)
  | [] => .ok none
  | change :: changes =>
    match change.path with
    | none => .error (.key_error "path")
    | some other => if other = path then .ok (some 0) else (find_change path changes).map (·.map (· + 1))

def World.setChanges (f : List Change → List Change) (w : World) : World :=
  { w with state := { w.state with changes := f w.state.changes } }

/-- `_change`: the record of a document whose canonical source the controller wrote. -/
def record_change (fails : Bool) (document : SourceDocument) (agent_id : String) : Controller Unit := do
  failing fails .os_error
  let w ← Prog.get
  let prior ← Prog.ofExcept (find_change document.path w.state.changes)
  let change : Change := {
    path := some document.path
    status := some (if document.generated then "added" else "modified")
    pending := some false
    agent_id := some agent_id }
  Prog.modify (World.setChanges fun changes =>
    match prior with
    | some i => changes.modify i fun prior => { change with last_attempt := prior.last_attempt }
    | none => changes ++ [change])

/-- The record is staged until the proof is integrated. -/
def stage_change (path : String) : Controller Unit := do
  let w ← Prog.get
  match ← Prog.ofExcept (find_change path w.state.changes) with
  | none => .raise (.key_error "StopIteration")
  | some i => Prog.modify (World.setChanges fun changes =>
      changes.modify i fun change => { change with status := some "staged", pending := some true })

/-- A failed installation leaves its agent in the record it started from. -/
def restore_change (path : String) (before : Option Change) : Controller Unit := do
  let w ← Prog.get
  match ← Prog.ofExcept (find_change path w.state.changes) with
  | none => return
  | some i =>
    match before with
    | some before => do
      let failed := ((w.state.changes[i]?).bind (·.agent_id)).getD ""
      -- `clear()`, `update(...)` and the last assignment are three steps for a concurrent copy.
      Prog.modify (World.setChanges fun changes => changes.modify i fun _ => {})
      Prog.modify (World.setChanges fun changes => changes.modify i fun _ => before)
      Prog.modify (World.setChanges fun changes =>
        changes.modify i fun change => { change with last_attempt := some ("rolled_back", failed) })
    | none => Prog.modify (World.setChanges fun changes =>
        changes.modify i fun change => { change with status := some "rolled_back", pending := some false })

/-! ### Sources -/

/-- `assert_current` of every document. -/
def World.sources (w : World) : Except Raised Unit :=
  w.documents.items.forM fun item =>
    match item.2.render C [] with
    | .error e => .error (.value_error e)
    | .ok text => if w.disk.files.get? item.2.path = some text then .ok () else .error (.source_conflict item.2.path)

def assert_sources : Controller Unit := do
  let w ← Prog.get
  Prog.ofExcept (w.sources C)

/-! ### The journal -/

/-- Record both source states before the canonical source is replaced. -/
def begin_proof (fails : Bool) (id : String) (node : Node) (candidate : List Text) (before : SourceDocument)
    (after : Text) : Controller ProofJournal := do
  let w ← Prog.get
  let prior ← Prog.ofExcept (find_change node.file w.state.changes)
  let text ← checked (before.render C [])
  let journal : ProofJournal := {
    id := id
    path := node.file
    node_id := node.id
    candidate := candidate
    before_document := before
    before_change := prior.bind (w.state.changes[·]?)
    before_sha256 := sha256 text
    after_sha256 := sha256 after }
  failing fails .os_error
  Prog.modify (World.setJournal (some (.proof journal)))
  return journal

/-- `dag.by_id()[id]`. -/
def find_node (id : String) : Controller Node := do
  let w ← Prog.get
  match w.dag.by_id id with
  | none => .raise (.key_error id)
  | some node => return node

/-- The dependencies of a node that are not proved; a missing one raises. -/
def conditional (dag : Dag) : List String → Except Raised (List String)
  | [] => .ok []
  | dep :: dependencies =>
    match dag.by_id dep with
    | none => .error (.key_error dep)
    | some node => (conditional dag dependencies).map fun rest =>
        if node.status = .proved then rest else dep :: rest

def World.updateNode (id : String) (f : Node → Node) (w : World) : World := { w with dag := w.dag.update id f }

/-- Keep the candidate of an interrupted installation for a fresh check. -/
def retain_candidate (journal : ProofJournal) : Controller Unit := do
  let node ← find_node journal.node_id
  let w ← Prog.get
  let pending ← Prog.ofExcept (conditional w.dag node.dependencies)
  Prog.modify (World.updateNode journal.node_id fun node => { node with
    candidate := journal.candidate
    status := .candidate
    conditional_dependencies := pending
    notes := node.notes ++ "\nRecovered an interrupted proof installation; recheck the retained candidate " ++
      "before promotion." })

/-- Undo an installation that was not committed. -/
def undo_proof (fails : RecoverStep → Bool) (shown : Node → NodeStatus) (journal : ProofJournal) :
    Controller Unit := do
  let text ← checked (journal.before_document.render C [])
  failing (fails (.replace journal.before_document.path)) .os_error
  Prog.modify (World.writeFile journal.before_document.path text)
  Prog.modify fun w => { w with
    documents := w.documents.set journal.before_document.path journal.before_document }
  failing (fails (.artifact journal.before_document.path)) .os_error
  Prog.modify (World.unlink (artifact_path journal.before_document.path))
  retain_candidate journal
  restore_change journal.before_document.path journal.before_change
  persist (fun part => fails (.persist part)) shown

/-- A committed installation must be the source and the checkpoint. -/
def check_committed (journal : ProofJournal) (current : String) : Controller Unit := do
  let w ← Prog.get
  match w.documents.get? journal.before_document.path with
  | none => .raise (.key_error journal.before_document.path)
  | some document => do
    let text ← checked (document.render C [])
    if current ≠ journal.after_sha256 ∨ sha256 text ≠ current then
      .raise (.source_conflict journal.before_document.path)
    else return

def recover_install (fails : RecoverStep → Bool) (shown : Node → NodeStatus) (journal : ProofJournal) :
    Controller Unit := do
  let w ← Prog.get
  match w.disk.files.get? journal.before_document.path with
  | none => .raise .os_error
  | some content => do
    let current := sha256 content
    if current ≠ journal.before_sha256 ∧ current ≠ journal.after_sha256 then
      .raise (.source_conflict journal.before_document.path)
    else do
      (if w.state.source_transaction = some journal.id then check_committed C sha256 journal current
        else undo_proof C fails shown journal)
      failing (fails .unlink) .os_error
      Prog.modify (World.setJournal none)

def recover_proof (fails : RecoverStep → Bool) (shown : Node → NodeStatus) : Controller Unit := do
  let w ← Prog.get
  match w.disk.journal with
  | none => return
  | some (.materialization journal) => recover_materialization fails shown journal
  | some (.proof journal) => recover_install C sha256 fails shown journal

/-! ### Accepting a candidate -/

/-- What the verifier and the gate before it said of a candidate. -/
inductive Verdict where
  | imports_rejected (notes : String)
  | rejected (notes : String)
  /-- The candidate was accepted, and its inputs are others by then. -/
  | inputs_changed
  | unavailable (message : String)
  | accepted
deriving DecidableEq

structure Submission where
  node : Node
  candidate : List Text
  job_id : String
  /-- The imports of the document with the candidate's own added. -/
  proof_imports : List String
  transaction_id : String
  verdict : Verdict
  /-- Whether the artifact of the check is offered for installation, and what was installed. -/
  installed : Option (Option Text) := none
  /-- The artifact of a compilation, when it succeeds. -/
  compiled : Option Text := none

/-- The calls of an acceptance that may fail. -/
inductive Step where
  | check_active
  | check_begin
  | check
  | check_end
  | check_event
  | stop_persist (part : StorePart)
  | stop_active
  | active
  | journal
  | install_active
  | replace
  | staged_change
  | install_begin
  | install
  | install_end
  | declined
  | compile_begin
  | compile
  | compile_end
  | compile_active
  | rollback (step : RecoverStep)
  | retain (part : StorePart)
  | proved_change
  | commit (part : StorePart)
  | unlink
  | event
deriving DecidableEq

variable (fails : Step → Bool) (shown : Node → NodeStatus) (sub : Submission)

/-- `_ensure_active`. -/
def ensure_active (step : Step) : Controller Unit := failing (fails step) (.infrastructure "interrupted" "")

/-- The document with the candidate's imports. -/
def staged_document (document : SourceDocument) : SourceDocument :=
  { document with proof_imports := sub.proof_imports }

/-- The document with the candidate in its holes. -/
def proved_document (document : SourceDocument) : SourceDocument :=
  { staged_document sub document with
    replacements := (sub.node.holes.zip sub.candidate).foldl (fun r p => r.set p.1 p.2) document.replacements }

def find_document (file : String) : Controller SourceDocument := do
  let w ← Prog.get
  match w.documents.get? file with
  | none => .raise (.key_error file)
  | some document => return document

/-- `progress.call`: work that is published when it begins and when it ends. -/
def progress_call (begin_fails end_fails : Bool) (x : Controller Unit) : Controller Unit := do
  publish begin_fails shown
  Prog.handle (fun e => do
    publish end_fails shown
    .raise e) x
  publish end_fails shown

/-- The verifier leaves an artifact, or none. -/
def leave_artifact (step : Step) (artifact : Option Text) : Controller Unit := do
  failing (fails step) .os_error
  match artifact with
  | none => return
  | some artifact => Prog.modify (World.writeFile (artifact_path sub.node.file) artifact)

/-- Compile the installed source. -/
def compile_source : Controller Unit := do
  progress_call shown (fails .compile_begin) (fails .compile_end) (leave_artifact fails sub .compile sub.compiled)
  if sub.compiled = none then do
    ensure_active fails .compile_active
    .raise (.infrastructure "environment_error" "the proof could not be compiled")
  else return

/-- Install the artifact of the check, else compile the installed source. -/
def integrate_artifact : Controller Unit :=
  match sub.installed with
  | none => compile_source fails shown sub
  | some artifact => do
    progress_call shown (fails .install_begin) (fails .install_end) (leave_artifact fails sub .install artifact)
    if artifact = none then do
      failing (fails .declined) .os_error
      compile_source fails shown sub
    else return

/-- The canonical source must still be the one before. -/
def check_unchanged (before : SourceDocument) : Controller Unit := do
  let w ← Prog.get
  match w.disk.files.get? sub.node.file with
  | none => .raise .os_error
  | some content => do
    let text ← checked (before.render C [])
    if content ≠ text then
      .raise (.infrastructure "source_conflict" "protected source changed before proof installation")
    else return

/-- Everything between the journal and the commit. -/
def integrate (before : SourceDocument) (after : SourceDocument) : Controller Unit := do
  ensure_active fails .install_active
  check_unchanged C sub before
  let text ← checked (after.render C [])
  failing (fails .replace) .os_error
  Prog.modify (World.writeFile sub.node.file text)
  record_change (fails .staged_change) after sub.job_id
  stage_change sub.node.file
  integrate_artifact fails shown sub
  assert_sources C

/-- `document.replacements = previous`; the imports stay. -/
def World.resetReplacements (before : SourceDocument) (w : World) : World :=
  match w.documents.get? before.path with
  | none => w
  | some document =>
    { w with documents := w.documents.set before.path { document with replacements := before.replacements } }

/-- A conflict stops the controller; any other failure of the rollback is raised as it is. -/
def rollback_failed : Raised → Controller Unit
  | .value_error e => .raise (.infrastructure "source_conflict" e.message)
  | .source_conflict path => .raise (.infrastructure "source_conflict" path)
  | e => .raise e

/-- What the controller raises for a failed integration. -/
def paused : Raised → Raised
  | .infrastructure status message => .infrastructure status message
  | _ => .infrastructure "environment_error" "Checked proof integration paused; candidate retained for resume"

/-- The handler of a failed integration. -/
def pause (before : SourceDocument) (error : Raised) : Controller Unit := do
  Prog.modify (World.resetReplacements before)
  Prog.handle rollback_failed (recover_proof C sha256 (fun step => fails (.rollback step)) shown)
  Prog.modify (World.updateNode sub.node.id fun node => { node with
    candidate := sub.candidate
    status := .candidate
    notes := node.notes ++ "\nProof integration paused" })
  persist (fun part => fails (.retain part)) shown
  .raise (paused error)

/-- `_refresh_locations` masks the rendered document of every node. -/
def World.locations (w : World) : Except Raised Unit :=
  w.dag.nodes.forM fun node =>
    match w.documents.get? node.file with
    | none => .error (.key_error node.file)
    | some document =>
      match document.render C [] >>= lean_code_mask with
      | .error e => .error (.value_error e)
      | .ok _ => .ok ()

/-- Publish the proof, then drop the journal. -/
def commit_proof (after : SourceDocument) : Controller Unit := do
  let text ← checked (after.render C [])
  Prog.modify (World.updateNode sub.node.id fun node => { node with
    status := .proved
    candidate := []
    candidate_imports := []
    conditional_dependencies := []
    proof_sha256 := sha256 text })
  record_change (fails .proved_change) after sub.job_id
  let w ← Prog.get
  Prog.ofExcept (w.locations C)
  Prog.modify fun w => { w with state := { w.state with source_transaction := some sub.transaction_id } }
  persist (fun part => fails (.commit part)) shown
  failing (fails .unlink) .os_error
  Prog.modify (World.setJournal none)
  failing (fails .event) .os_error

/-- The second half of `_accept_locked`: the verifier accepted the candidate. -/
def install_proof : Controller Unit := do
  ensure_active fails .active
  assert_sources C
  let before ← find_document sub.node.file
  let after := proved_document sub before
  Prog.modify fun w => { w with documents := w.documents.set sub.node.file after }
  let text ← checked (after.render C [])
  let _ ← begin_proof C sha256 (fails .journal) sub.transaction_id sub.node sub.candidate before text
  Prog.handle (pause C sha256 fails shown sub before) (integrate C fails shown sub before after)
  commit_proof C sha256 fails shown sub after

/-- The result that stands for an acceptance whose inputs have changed. -/
def changed_result : String := "\x7b\"accepted\": false, \"error\": \"Candidate inputs or Lean dependencies changed during verification.\"\x7d"

/-- A rejected or unchecked candidate is noted on its node. -/
def note_node (f : Node → Node) : Controller Unit := Prog.modify (World.updateNode sub.node.id f)

def accept_locked : Controller Bool := do
  ensure_active fails .check_active
  assert_sources C
  let document ← find_document sub.node.file
  match sub.verdict with
  | .imports_rejected notes => do
    note_node sub fun node => { node with notes := node.notes ++ "\nImport gate: " ++ notes }
    return false
  | verdict => do
    let _ ← checked (declaration_source C (staged_document sub document) sub.node (some sub.candidate))
    progress_call shown (fails .check_begin) (fails .check_end) (failing (fails .check) .os_error)
    failing (fails .check_event) .os_error
    match verdict with
    | .accepted => do
      install_proof C sha256 fails shown sub
      return true
    | .unavailable message => do
      note_node sub fun node => { node with candidate := sub.candidate, status := .candidate }
      persist (fun part => fails (.stop_persist part)) shown
      ensure_active fails .stop_active
      .raise (.infrastructure "environment_error" message)
    | .inputs_changed => do
      note_node sub fun node => { node with notes := node.notes ++ "\nParent Lean gate: " ++ changed_result }
      return false
    | .rejected notes | .imports_rejected notes => do
      note_node sub fun node => { node with notes := node.notes ++ "\nParent Lean gate: " ++ notes }
      return false

/-! ### Resuming -/

/-- The documents of the checkpoint the state names. -/
def load_documents (disk : Disk) (saved : Saved) : Except Raised Documents :=
  match saved.source_checkpoint with
  | none => .ok disk.source_json
  | some documents => if disk.checkpoints.any (· = documents) then .ok documents else .error .os_error

/-- The durable part of `_restore` up to the sources; nothing fails but what the files themselves say. -/
def restore (max_nodes : Nat) (shown : Node → NodeStatus) : Controller Unit := do
  let w ← Prog.get
  let saved := w.disk.state_json
  Prog.modify fun w => { w with
    dag := saved.dag
    state := {
      dag := saved.dag
      source_checkpoint := saved.source_checkpoint
      source_transaction := saved.source_transaction
      changes := saved.changes
      retired_nodes := saved.retired_nodes
      planning_request := saved.planning_request } }
  checked (saved.dag.validate (max 128 saved.nodes.length))
  checked (saved.dag.validate max_nodes)
  let documents ← Prog.ofExcept (load_documents w.disk saved)
  Prog.modify fun w => { w with documents := documents }
  recover_proof C sha256 (fun _ => false) shown
  assert_sources C

/-- A new process that starts from the files of another. -/
def Disk.resume (disk : Disk) : World := { disk := disk }

end Install

end LeanFlow.Transactions
