import LeanFlow.General.Program
import LeanFlow.Goals.Dag
import LeanFlow.Source.Rendering
import LeanFlow.Source.Scratch

/-! The durable state of a run, and who writes it.

The controller keeps the graph and the documents in memory and publishes them with
the `state` dictionary; `persist` writes all three. Other threads publish the live
`state` dictionary at any time: they copy it piece by piece, under the progress lock
only. A crash keeps the files and nothing else. -/
namespace LeanFlow.Transactions
open General Goals Source

/-! ### Data -/

abbrev Documents := Dict String SourceDocument

/-- A record of `state["changes"]`; it is a dictionary, so any field may be missing. -/
structure Change where
  path : Option String := none
  status : Option String := none
  pending : Option Bool := none
  agent_id : Option String := none
  last_attempt : Option (String × String) := none
deriving DecidableEq

/-- The `state` dictionary in memory, as far as the transactions read or write it. A checkpoint file is
named by the digest of its documents and never rewritten, so its name stands for them; the planning
checkpoint is only carried along. -/
structure State where
  dag : Dag := {}
  source_checkpoint : Option Documents := none
  source_transaction : Option String := none
  changes : List Change := []
  retired_nodes : List Node := []
  planning_request : Option String := none
deriving DecidableEq

/-- A node as it is published: another status may be shown, with the scheduler's beside it. -/
structure SavedNode where
  node : Node
  scheduler_status : Option NodeStatus := none
deriving DecidableEq

/-- `state.json`. -/
structure Saved where
  nodes : List SavedNode := []
  roots : List String := []
  revision : Nat := 0
  source_checkpoint : Option Documents := none
  source_transaction : Option String := none
  changes : List Change := []
  retired_nodes : List Node := []
  planning_request : Option String := none
deriving DecidableEq

/-- The journal of a proof installation. -/
structure ProofJournal where
  id : String
  path : String
  node_id : String
  candidate : List Text
  before_document : SourceDocument
  before_change : Option Change
  before_sha256 : String
  after_sha256 : String
deriving DecidableEq

/-- The states of one file a planning transaction wrote; `none` is absence. -/
structure WriteEntry where
  before : Option Text
  allowed : List (Option Text)
  after : Option Text
deriving DecidableEq

/-- The journal of a planning materialization. -/
structure MaterializationJournal where
  id : String
  writes : Dict String WriteEntry := .empty
  before_dag : Dag := {}
  before_documents : Documents := .empty
  before_changes : List Change := []
  before_retired : List Node := []
  compiled_modules : List String := []
  compiled_artifacts : Dict String (Option Text) := .empty

/-- `source-transaction.json`. -/
inductive Journal where
  | proof (journal : ProofJournal)
  | materialization (journal : MaterializationJournal)

/-- What a crash keeps. -/
structure Disk where
  files : Dict String Text := .empty
  checkpoints : List Documents := []
  source_json : Documents := .empty
  state_json : Saved := {}
  journal : Option Journal := none

/-- A publication in progress: the top level of `state` is copied first, then the list of changes,
then one record after the other. -/
structure Publishing where
  copied : State
  shown : Node → NodeStatus
  listed : Option Nat := none
  changes : List Change := []

structure World where
  documents : Documents := .empty
  dag : Dag := {}
  state : State := {}
  /-- The documents the store wrote last. -/
  stored : Option Documents := none
  /-- The controller holds the progress lock. -/
  locked : Bool := false
  /-- Another thread holds it. -/
  publishing : Option Publishing := none
  /-- The controller holds the runtime lock. -/
  held : Bool := false
  /-- The journal a planning transaction holds in memory; every step changes this object first. -/
  planning : Option MaterializationJournal := none
  disk : Disk := {}

/-- What the controller raises. -/
inductive Raised where
  | infrastructure (status message : String)
  | source_conflict (path : String)
  | value_error (error : ValueError)
  | runtime_error (message : String)
  | key_error (key : String)
  | os_error
deriving DecidableEq

abbrev Controller := Prog World Raised

def checked {α : Type} (result : Except ValueError α) : Controller α :=
  Prog.ofExcept (result.mapError .value_error)

/-- A call that raises when it is said to. -/
def failing (fails : Bool) (e : Raised) : Controller Unit := if fails then .raise e else return

def World.writeFile (path : String) (content : Text) (w : World) : World :=
  { w with disk := { w.disk with files := w.disk.files.set path content } }

/-- `unlink(missing_ok=True)`. -/
def World.unlink (path : String) (w : World) : World :=
  { w with disk := { w.disk with files := w.disk.files.erase path } }

def World.setJournal (journal : Option Journal) (w : World) : World :=
  { w with disk := { w.disk with journal := journal } }

def World.hold (journal : MaterializationJournal) (w : World) : World := { w with planning := some journal }

/-! ### Publishing -/

/-- Show another status for nodes that are worked on; a proved node is shown as it is. -/
def overlay (shown : Node → NodeStatus) (node : Node) : SavedNode :=
  if node.status = .proved then { node := node }
  else { node := { node with status := shown node }, scheduler_status := some node.status }

/-- `saved_node.pop("scheduler_status", saved_node["status"])`. -/
def SavedNode.restored (saved : SavedNode) : Node :=
  { saved.node with status := saved.scheduler_status.getD saved.node.status }

theorem restored_overlay (shown : Node → NodeStatus) (node : Node) :
    (overlay shown node).restored = node := by
  rw [overlay]
  split <;> rfl

def State.publication (state : State) (shown : Node → NodeStatus) : Saved where
  nodes := state.dag.nodes.map (overlay shown)
  roots := state.dag.roots
  revision := state.dag.revision
  source_checkpoint := state.source_checkpoint
  source_transaction := state.source_transaction
  changes := state.changes
  retired_nodes := state.retired_nodes
  planning_request := state.planning_request

/-- The graph a resume reads. -/
def Saved.dag (saved : Saved) : Dag := ⟨saved.nodes.map SavedNode.restored, saved.roots, saved.revision⟩

@[simp] theorem dag_publication (state : State) (shown : Node → NodeStatus) :
    (state.publication shown).dag = state.dag := by
  have hnodes : (state.dag.nodes.map (overlay shown)).map SavedNode.restored = state.dag.nodes := by
    rw [List.map_map, show SavedNode.restored ∘ overlay shown = id from funext (restored_overlay shown),
      List.map_id]
  rw [Saved.dag]
  exact congrArg (Dag.mk · _ _) hnodes

def World.save (saved : Saved) (w : World) : World := { w with disk := { w.disk with state_json := saved } }

/-- A publication by the thread that holds the lock. -/
def World.publish (shown : Node → NodeStatus) (w : World) : World := w.save (w.state.publication shown)

/-- The rest of a publication while nothing changes: the records not copied yet, and the write. -/
def Publishing.complete (p : Publishing) (changes : List Change) : Saved :=
  let listed := changes.take (p.listed.getD changes.length)
  { p.copied with changes := p.changes ++ listed.drop p.changes.length }.publication p.shown

/-- Whoever waits for the progress lock sees the publication that holds it end. -/
def World.acquire (w : World) : World :=
  match w.publishing with
  | none => { w with locked := true }
  | some p => { w.save (p.complete w.state.changes) with publishing := none, locked := true }

def World.release (w : World) : World := { w with locked := false }

/-- `with self.progress.lock`. -/
def with_lock (x : Controller Unit) : Controller Unit := do
  Prog.modify World.acquire
  Prog.handle (fun e => do
    Prog.modify World.release
    .raise e) x
  Prog.modify World.release

def publish (fails : Bool) (shown : Node → NodeStatus) : Controller Unit :=
  with_lock do
    failing fails .os_error
    Prog.modify (World.publish shown)

/-- What another thread does next. -/
inductive PublishStep where
  | begin (shown : Node → NodeStatus)
  | list
  | record
  | write
  | fail

/-- `LiveProgress.publish` by another thread. -/
def PublishStep.apply (step : PublishStep) (w : World) : Option World :=
  match step, w.publishing with
  | .begin shown, none =>
    if w.locked then none else some { w with publishing := some { copied := w.state, shown := shown } }
  | .list, some p =>
    if p.listed = none then
      some { w with publishing := some { p with listed := some w.state.changes.length } }
    else none
  | .record, some p =>
    if p.listed.any (p.changes.length < ·) then
      (w.state.changes[p.changes.length]?).map fun change =>
        { w with publishing := some { p with changes := p.changes ++ [change] } }
    else none
  | .write, some p =>
    if p.listed.any (p.changes.length = ·) then
      some { w.save ({ p.copied with changes := p.changes }.publication p.shown) with publishing := none }
    else none
  | .fail, some _ => some { w with publishing := none }
  | _, _ => none

/-! ### Persisting -/

/-- The files `RunStore.write` writes, each of which may fail. -/
inductive StorePart where
  | checkpoint
  | source_json
  | dag_json
  | plan
  | state_json
deriving DecidableEq

/-- A new checkpoint, when its file is not there yet. -/
def World.checkpoint (w : World) : World :=
  if w.documents ∈ w.disk.checkpoints then w
  else { w with disk := { w.disk with checkpoints := w.documents :: w.disk.checkpoints } }

/-- `state.update(dag=..., source_checkpoint=...)`. -/
def World.commit (w : World) : World :=
  { w with state := { w.state with dag := w.dag, source_checkpoint := w.stored } }

/-- The checkpoint of the documents, when they changed since the last one. -/
def store_documents (fails : StorePart → Bool) : Controller Unit := do
  let w ← Prog.get
  if w.stored ≠ some w.documents then do
    failing (fails .checkpoint) .os_error
    Prog.modify World.checkpoint
    failing (fails .source_json) .os_error
    Prog.modify fun w => { w with disk := { w.disk with source_json := w.documents }, stored := some w.documents }
  else return

def store_write (fails : StorePart → Bool) : Controller Unit := do
  store_documents fails
  Prog.modify World.commit
  failing (fails .dag_json) .os_error
  failing (fails .plan) .os_error

def persist (fails : StorePart → Bool) (shown : Node → NodeStatus) : Controller Unit :=
  with_lock do
    store_write fails
    failing (fails .state_json) .os_error
    Prog.modify (World.publish shown)

end LeanFlow.Transactions
