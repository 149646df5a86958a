import LeanFlow.General.Dict
import Mathlib.Data.List.Sort

/-! Paths in the text an agent is given.

An agent works in a private copy of the project. `remap_project_text` replaces the paths of
the project and of the job's workspace by those of the copy, in one left-to-right search for
the longest path that ends at a boundary. -/
namespace LeanFlow.Workspace
open General

abbrev Text := List Char

/-! ### Characters -/

/-- `\s`. -/
def isspace (c : Char) : Bool :=
  c = ' ' || (9 ≤ c.val && c.val ≤ 13) || (28 ≤ c.val && c.val ≤ 31) || c.val = 0x85 || c.val = 0xa0 || c.val = 0x1680 ||
    (0x2000 ≤ c.val && c.val ≤ 0x200a) || c.val = 0x2028 || c.val = 0x2029 || c.val = 0x202f || c.val = 0x205f || c.val = 0x3000

def separator (c : Char) : Bool := c = '/' || c = '\\'

/-- White space and punctuation that is in no component of a path. -/
@[irreducible] def outside (c : Char) : Bool :=
  isspace c || ['"', '\'', '`', '<', '>', '(', ')', '[', ']', '\x7b', '\x7d', ',', ';', ':', '!', '?'].contains c

/-- The boundary of the pattern: the end, a separator or what is outside a path. -/
def boundary : Text → Bool
  | [] => true
  | c :: _ => separator c || outside c

/-! ### The search -/

/-- The paths and their images, longest first. -/
def prefixes (source_root snapshot_root : Text) (replacements : List (Text × Text)) : List (Text × Text) :=
  (Dict.ofList ((source_root, snapshot_root) :: replacements ++ [(snapshot_root, snapshot_root)])).items.insertionSort
    fun a b => b.1.length ≤ a.1.length

/-- The path stands here, up to a boundary. -/
def stands (path text : Text) : Bool := path.isPrefixOf text && boundary (text.drop path.length)

/-- The alternative that matches here. -/
def found (paths : List (Text × Text)) (text : Text) : Option (Text × Text) := paths.find? fun path => stands path.1 text

/-- `re.sub`. The first `skip` characters are those of a match. -/
def sub (paths : List (Text × Text)) : Nat → Text → Text
  | _, [] => []
  | skip + 1, _ :: rest => sub paths skip rest
  | 0, c :: rest =>
    match found paths (c :: rest) with
    | some (path, image) => image ++ sub paths (path.length - 1) rest
    | none => c :: sub paths 0 rest

def remap_project_text (text source_root snapshot_root : Text) (replacements : List (Text × Text)) : Text :=
  sub (prefixes source_root snapshot_root replacements) 0 text

def job_name : Text := ['.', 'l', 'e', 'a', 'n', 'f', 'l', 'o', 'w', '-', 'j', 'o', 'b']

/-- The agent's scratch directory in its copy. -/
def leanflow_job : Text := '/' :: job_name

/-- `_map_paths`, of one text. -/
def map_paths (text project workspace snapshot : Text) : Text :=
  remap_project_text text project snapshot [(workspace, snapshot ++ leanflow_job)]

example : map_paths "see /p/A.lean, /p2/B.lean and /p/w/project/C.lean".toList "/p".toList "/p/w".toList "/p/w/project".toList =
    "see /p/w/project/A.lean, /p2/B.lean and /p/w/project/C.lean".toList := by decide +kernel

end LeanFlow.Workspace
