import LeanFlow.General.Program
import LeanFlow.Native.Proposal

/-! Promotion of an accepted proposal.

The files of the receipt replace the canonical ones, one after the other, while users go
on editing. A failure puts back the files that were replaced. The check of one file and
its replacement are one step, and so are those of a rollback. -/
namespace LeanFlow.Native
open General Source
open Goals (path_parts lean_suffix)

variable {β : Type} [DecidableEq β]

/-! ### The project -/

def SKIP : List String :=
  [".lake", ".git", ".leanflow", ".leanflow-runtime", ".leanflow-job", ".venv", "node_modules"]

/-- Where the symbolic links of the project lead. -/
structure Links where
  /-- The path leads through a linked directory. -/
  linked : String → Bool
  /-- It resolves to a place outside the project. -/
  escapes : String → Bool

/-- The path of a file that a snapshot has. -/
def source_path (L : Links) (path : String) : Bool :=
  !L.linked path && (path_parts path).dropLast.all (fun part => String.ofList part ∉ SKIP) &&
    (lean_suffix path || decide (file_name path ∈ CONFIG) || file_name path == "Blueprint.md")

/-- Capture project source/config bytes without following source aliases. -/
def source_files (L : Links) (files : Dict String β) : Dict String β := files.restrict (source_path L)

/-- A part of the path starts with a dot. -/
def hidden (path : String) : Bool := (path_parts path).any fun part => part.head? == some '.'

/-- The canonical project, the local `written`, and what users did meanwhile. -/
structure World (β : Type) where
  files : Dict String β
  /-- The temporary files, each with the path that it is for. -/
  staged : List (String × β) := []
  written : Dict String β := .empty
  /-- The files that users wrote or removed, the last one first. -/
  edits : List (String × Option β) := []

def World.put (path : String) (content : Option β) (w : World β) : World β :=
  match content with
  | some data => { w with files := w.files.set path data }
  | none => { w with files := w.files.erase path }

/-- A user writes or removes a file. -/
def World.edit (change : String × Option β) (w : World β) : World β :=
  { w.put change.1 change.2 with edits := change :: w.edits }

/-- What the last edit of the file left. -/
def World.last (w : World β) (path : String) : Option (Option β) := Dict.find path w.edits

/-! ### The promotion -/

/-- The calls of a promotion that may fail. -/
inductive Call where
  | lock
  | started
  | active (path : String)
  | finished
  | sources
  | generation
  | resolve (path : String)
  | read (path : String)
  | mkdir (path : String)
  | create (path : String)
  | write (path : String)
  | replace (path : String)
deriving DecidableEq

inductive Raised where
  | interrupted
  | value_error (error : ValueError)
  | key_error (key : String)
  | os_error
deriving DecidableEq

abbrev Promoter (β : Type) := Prog (World β) Raised

def failing (fails : Bool) (e : Raised) : Promoter β Unit := if fails then .raise e else return

section Promote

variable (H : Host β) (encode : Text → β) (L : Links) (fails : Call → Bool) (baseline : Dict String β) (receipt : Receipt)

/-- A file with the data is made next to the path and takes its place. -/
def replace_file (path : String) (data : β) (w : World β) : Except Raised Unit × World β :=
  if fails (.mkdir path) || fails (.create path) then (.error .os_error, w)
  else if fails (.write path) || fails (.replace path) then
    (.error .os_error, { w with staged := w.staged ++ [(path, data)] })
  else (.ok (), { w.put path (some data) with written := w.written.set path data })

/-- From the comparison with the baseline to the replacement. -/
def check_and_replace (path : String) (data : β) (w : World β) : Except Raised Unit × World β :=
  if fails (.read path) then (.error .os_error, w)
  else if w.files.get? path ≠ baseline.get? path then
    (.error (.value_error ⟨"Canonical source changed before publication: " ++ path⟩), w)
  else
    match receipt.sha256.get? path with
    | none => (.error (.key_error path), w)
    | some sha256 =>
      if H.sha256 data ≠ sha256 then (.error (.value_error ⟨"Accepted source digest does not match the receipt"⟩), w)
      else replace_file fails path data w

/-- One turn of the loop. -/
def publish_file (item : String × Text) : Promoter β Unit := do
  failing (fails (.active item.1)) .interrupted
  failing (fails (.resolve item.1)) .os_error
  if L.escapes item.1 || hidden item.1 then
    .raise (.value_error ⟨"Proposal path escapes the publishable project source"⟩)
  else Prog.atomically (check_and_replace H fails baseline receipt item.1 (encode item.2))

/-- A user edit after our write belongs to the user, even during rollback. -/
def restore_file (item : String × β) : Promoter β Unit :=
  Prog.modify fun w => if w.files.get? item.1 = some item.2 then w.put item.1 (baseline.get? item.1) else w

def roll_back : Promoter β Unit := do
  let w ← Prog.get
  w.written.items.reverse.forM (restore_file baseline)

/-- Publish only accepted frozen bytes after rechecking canonical source identity. -/
def promote (generation : String) : Promoter β (List String) :=
  if receipt.accepted = false then .raise (.value_error ⟨"A successful independent receipt is required"⟩)
  else do
    failing (fails .lock) .os_error
    failing (fails .started) .interrupted
    failing (fails .sources) (.value_error ⟨"Source snapshots cannot contain file symlinks"⟩)
    let w ← Prog.get
    (if !(source_files L w.files).equals baseline then
      .raise (.value_error ⟨"Canonical sources changed during the native workflow; proposal retained for review"⟩)
      else pure ())
    failing (fails .generation) .os_error
    (if receipt.environment_generation ≠ some generation then
      .raise (.value_error ⟨"Canonical Lean dependencies changed or the receipt lacks freshness evidence"⟩)
      else pure ())
    Prog.handle (fun e => do
        roll_back baseline
        .raise e) do
      receipt.files.items.forM (publish_file H encode L fails baseline receipt)
      failing (fails .finished) .interrupted
    let w ← Prog.get
    return w.written.keys

end Promote

end LeanFlow.Native
