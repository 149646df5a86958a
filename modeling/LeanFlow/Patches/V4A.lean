import LeanFlow.Source.Declarations
import Mathlib.Data.List.Infix

/-! Patches in the V4A format.

A patch is read line by line between its markers. A line that opens an operation or a
hunk closes the one before it; a hunk without lines is dropped. -/
namespace LeanFlow.Patches
open General Source

inductive OperationType where
  | add
  | update
  | delete
  | move
deriving DecidableEq

/-- Whether a line stays, goes or comes. -/
inductive LineKind where
  | context
  | removed
  | added
deriving DecidableEq

def LineKind.char : LineKind → Char
  | context => ' '
  | removed => '-'
  | added => '+'

structure HunkLine where
  kind : LineKind
  content : Text
deriving DecidableEq

structure Hunk where
  context_hint : Option Text := none
  lines : List HunkLine := []
deriving DecidableEq

structure PatchOperation where
  operation : OperationType
  file_path : Text
  new_path : Option Text := none
  hunks : List Hunk := []
  content : Option Text := none
deriving DecidableEq

/-! ### Lines -/

/-- What follows a word. -/
def after_word (word : String) (text : Text) : Option Text :=
  if word.toList.isPrefixOf text then some (text.drop word.toList.length) else none

section Lines

variable (C : CharClass)

/-- What follows `\*\*\*\s*<word>\s+File:`. -/
def file_header (word : String) (line : Text) : Option Text := do
  let rest ← after_word "***" line
  let rest ← after_word word (lstrip C rest)
  if rest.head?.any C.space then after_word "File:" (lstrip C rest) else none

/-- `\s*(.+)`, stripped. -/
def file_name (text : Text) : Option Text := if text = [] then none else some (strip C text)

/-- `(.+?)`, and what the rest of the expression finds behind it. -/
def lazy_group {β : Type} (next : Text → Option β) (text : Text) : Option (Text × β) :=
  (List.range text.length).findSome? fun n => (next (text.drop (n + 1))).map fun found => (text.take (n + 1), found)

/-- `\s*` gives back what it took from the end until the rest of the expression goes on. -/
def spaced {β : Type} (next : Text → Option β) (text : Text) : Option β :=
  (List.range ((text.takeWhile C.space).length + 1)).reverse.findSome? fun n => next (text.drop n)

/-- `\s*->\s*(.+)`, stripped. -/
def arrow (text : Text) : Option Text := (after_word "->" (lstrip C text)).bind (file_name C)

/-- `\*\*\*\s*Move\s+File:\s*(.+?)\s*->\s*(.+)`, both groups stripped. -/
def move_match (line : Text) : Option (Text × Text) := do
  let rest ← file_header C "Move" line
  let (file_path, new_path) ← spaced C (lazy_group (arrow C)) rest
  return (strip C file_path, new_path)

/-- `@@\s*(.+?)\s*@@`. -/
def hint_match (line : Text) : Option Text := do
  let rest ← after_word "@@" line
  let (hint, _) ← spaced C (lazy_group fun text => after_word "@@" (lstrip C text)) rest
  return hint

/-- A line of a hunk; one without a mark is context, and one about the end of the file is none. -/
def hunk_line : Text → Option HunkLine
  | '+' :: content => some ⟨.added, content⟩
  | '-' :: content => some ⟨.removed, content⟩
  | ' ' :: content => some ⟨.context, content⟩
  | '\\' :: _ => none
  | line => some ⟨.context, line⟩

end Lines

/-! ### The parser -/

structure Parsing where
  operations : List PatchOperation := []
  current_op : Option PatchOperation := none
  current_hunk : Option Hunk := none

/-- The operation with its last hunk, if that has lines. -/
def PatchOperation.close (op : PatchOperation) (hunk : Option Hunk) : PatchOperation :=
  match hunk with
  | some hunk => if hunk.lines = [] then op else { op with hunks := op.hunks ++ [hunk] }
  | none => op

/-- The operations with the current one. -/
def Parsing.saved (state : Parsing) : List PatchOperation :=
  match state.current_op with
  | some op => state.operations ++ [op.close state.current_hunk]
  | none => state.operations

def Parsing.step (C : CharClass) (state : Parsing) (line : Text) : Parsing :=
  if let some path := (file_header C "Update" line).bind (file_name C) then
    { operations := state.saved, current_op := some { operation := .update, file_path := path } }
  else if let some path := (file_header C "Add" line).bind (file_name C) then
    { operations := state.saved, current_op := some { operation := .add, file_path := path }, current_hunk := some {} }
  else if let some path := (file_header C "Delete" line).bind (file_name C) then
    { operations := state.saved ++ [{ operation := .delete, file_path := path }] }
  else if let some (path, new_path) := move_match C line then
    { operations := state.saved ++ [{ operation := .move, file_path := path, new_path := some new_path }] }
  else
    match state.current_op with
    | none => state
    | some op =>
      if "@@".toList.isPrefixOf line then
        { state with current_op := some (op.close state.current_hunk), current_hunk := some { context_hint := hint_match C line } }
      else if line = [] then state
      else
        let hunk := state.current_hunk.getD {}
        { state with current_hunk := some { hunk with lines := hunk.lines ++ (hunk_line line).toList } }

def contains (part : String) (line : Text) : Bool := decide (part.toList <:+: line)

def begins_patch (line : Text) : Bool := contains "*** Begin Patch" line || contains "***Begin Patch" line

def ends_patch (line : Text) : Bool := contains "*** End Patch" line || contains "***End Patch" line

/-- The lines between the last begin marker and the first end marker behind one. -/
def boundaries : Nat → Option Nat → List Text → Option Nat × Option Nat
  | _, start, [] => (start, none)
  | i, start, line :: lines =>
    if begins_patch line then boundaries (i + 1) (some i) lines
    else if ends_patch line then (start, some i)
    else boundaries (i + 1) start lines

def patch_body (lines : List Text) : List Text :=
  let (start, stop) := boundaries 0 none lines
  (lines.take (stop.getD lines.length)).drop ((start.map (· + 1)).getD 0)

/-- The operations of a patch; the parser reports no error. -/
def parse_v4a_patch (C : CharClass) (patch_content : Text) : List PatchOperation × Option String :=
  (((patch_body (patch_content.splitOn '\n')).foldl (Parsing.step C) {}).saved, none)

/-! ### The format -/

def serialize_line (line : HunkLine) : Text := line.kind.char :: line.content

/-- The line over a hunk; the first one needs none unless it has a hint. -/
def hunk_header (first : Bool) (hunk : Hunk) : List Text :=
  match hunk.context_hint with
  | some hint => ["@@ ".toList ++ hint ++ " @@".toList]
  | none => if first then [] else ["@@".toList]

def serialize_hunk (first : Bool) (hunk : Hunk) : List Text := hunk_header first hunk ++ hunk.lines.map serialize_line

def serialize_hunks : List Hunk → List Text
  | [] => []
  | hunk :: hunks => serialize_hunk true hunk ++ hunks.flatMap (serialize_hunk false)

def operation_header (op : PatchOperation) : Text :=
  match op.operation with
  | .add => "*** Add File: ".toList ++ op.file_path
  | .update => "*** Update File: ".toList ++ op.file_path
  | .delete => "*** Delete File: ".toList ++ op.file_path
  | .move => "*** Move File: ".toList ++ op.file_path ++ " -> ".toList ++ op.new_path.getD []

def serialize_operation (op : PatchOperation) : List Text := operation_header op :: serialize_hunks op.hunks

/-- The standard text of a patch. -/
def serialize_v4a_patch (operations : List PatchOperation) : Text :=
  joinLines (["*** Begin Patch".toList] ++ operations.flatMap serialize_operation ++ ["*** End Patch".toList])

example : parse_v4a_patch .ascii (serialize_v4a_patch [
    { operation := .update, file_path := "a.lean".toList, hunks := [⟨some "f x".toList, [⟨.removed, "*** x".toList⟩, ⟨.added, []⟩]⟩, ⟨none, [⟨.context, "@@".toList⟩]⟩] },
    { operation := .move, file_path := "a".toList, new_path := some "b -> c".toList }]) =
  ([
    { operation := .update, file_path := "a.lean".toList, hunks := [⟨some "f x".toList, [⟨.removed, "*** x".toList⟩, ⟨.added, []⟩]⟩, ⟨none, [⟨.context, "@@".toList⟩]⟩] },
    { operation := .move, file_path := "a".toList, new_path := some "b -> c".toList }], none) := by decide +kernel

end LeanFlow.Patches
