import LeanFlow.General.JsonLayout

/-! The receipts of downloaded resources.

A fetch records each file it saved in a ledger that the model's tools cannot write. The
ledger is one JSON file of bounded size: a new receipt comes last, and the oldest are
evicted. The new ledger is written to a temporary file, which then replaces the old one. A
ledger is the JSON value that was written to it; its bytes are the value's layout. -/
namespace LeanFlow.Receipts
open General

def MAX_CANDIDATES : Nat := 128
def MAX_RECEIPT_BYTES : Nat := 512 * 1024

/-- `Path(path).name`. -/
def path_name (path : String) : String :=
  String.ofList (((path.toList.splitOn '/').filter fun part => part ≠ [] ∧ part ≠ ['.']).getLast?.getD [])

/-- What a fetch says of a file it saved. What it does not say is `null`. -/
structure Metadata where
  path : Option String
  url : Json := .null
  sha256 : Json := .null
  bytes : Json := .null

abbrev Records := List (String × Json)

def receipt_record (metadata : Metadata) : Json :=
  .obj [("path", metadata.path.elim .null .str), ("url", metadata.url), ("sha256", metadata.sha256), ("bytes", metadata.bytes)]

def payload (records : Records) : Json := .obj [("version", .num 1), ("resources", .obj records)]

inductive Error where
  | linked          -- "Resource receipt paths cannot traverse symlinks"
  | missing_path
  | oversized       -- "Resource receipt exceeds the private ledger size limit"
  | no_records      -- nothing is left to evict
  | unwritable

section ledger

variable (float_repr : Rat → List Char)

/-- `_receipts`. -/
def receipts : Option Json → Records
  | some (.obj content) =>
    if Json.file_size float_repr (.obj content) > MAX_RECEIPT_BYTES then []
    else match (Fields.get? content "resources").getD (.obj []) with
      | .obj records => if records.length ≤ MAX_CANDIDATES then records else []
      | _ => []
  | _ => []

/-- The length that the writer measures. -/
def measure (records : Records) : Nat := (Json.dumps float_repr (payload records)).length

/-- Evict the oldest records until the ledger is within its bounds. -/
def evict : Records → Except Error Records
  | [] => if 0 > MAX_CANDIDATES ∨ measure float_repr [] > MAX_RECEIPT_BYTES then .error .no_records else .ok []
  | record :: rest =>
    if (record :: rest).length > MAX_CANDIDATES ∨ measure float_repr (record :: rest) > MAX_RECEIPT_BYTES then evict rest
    else .ok (record :: rest)

/-- A record replaces an older one of its name, and comes last. -/
def replace (records : Records) (name : String) (record : Json) : Records :=
  records.filter (fun entry => entry.1 ≠ name) ++ [(name, record)]

/-! ### Writing -/

/-- The ledger, and the temporary files beside it, the last one first. -/
structure Directory where
  ledger : Option Json := none
  temporary : List (List Char) := []

/-- What fails in a write: no temporary file can be made, it holds only a part of the text, or it cannot replace
the ledger; and can it be removed then? -/
inductive Fault where
  | mkstemp
  | dump (written : Nat) (removed : Bool)
  | replace (removed : Bool)
deriving DecidableEq

/-- The file that was made goes; where it cannot be removed, it stays. -/
def Directory.unlink (removed : Bool) (d : Directory) : Directory :=
  if removed then { d with temporary := d.temporary.tail } else d

def atomic_json_write (fault : Option Fault) (data : Json) (d : Directory) : Except Error Unit × Directory :=
  let text := Json.layout float_repr 0 data
  match fault with
  | some .mkstemp => (.error .unwritable, d)
  | some (.dump written removed) =>
    (.error .unwritable, Directory.unlink removed { d with temporary := text.take written :: d.temporary })
  | some (.replace removed) => (.error .unwritable, Directory.unlink removed { d with temporary := text :: d.temporary })
  | none => (.ok (), { d with ledger := some data })

/-- One call, and what the file system does: a link on the ledger's path, or a write that fails. -/
structure Call where
  metadata : Metadata
  linked : Bool := false
  fault : Option Fault := none

def record_download (d : Directory) (call : Call) : Except Error Unit × Directory :=
  if call.linked then (.error .linked, d)
  else match call.metadata.path with
    | none => (.error .missing_path, d)
    | some path =>
      let name := path_name path
      let record := receipt_record call.metadata
      if measure float_repr [(name, record)] > MAX_RECEIPT_BYTES then (.error .oversized, d)
      else match evict float_repr (replace (receipts float_repr d.ledger) name record) with
        | .error e => (.error e, d)
        | .ok kept => atomic_json_write float_repr call.fault (payload kept) d

end ledger

end LeanFlow.Receipts
