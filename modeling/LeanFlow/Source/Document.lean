import LeanFlow.General.Dict
import LeanFlow.Source.Mask

/-! Source documents: protected baselines and authorized replacements.

A document is the baseline read at discovery, the replacement of some of its
literal holes and the imports the controller adds. `render` is the only way a
document becomes text, and `validate_hole_replacement` is the only gate a replacement passes. -/
namespace LeanFlow.Source
open General

variable (C : CharClass)

/-! ### The replacement gate -/

/-- The keywords no replacement may introduce. -/
def commands : List Text :=
  ["theorem", "lemma", "example", "def", "abbrev", "opaque", "axiom", "constant", "instance",
    "class", "structure", "inductive", "coinductive", "mutual", "namespace", "section", "end",
    "import", "prelude", "universe", "universes", "variable", "variables", "include", "omit",
    "attribute", "export", "syntax", "macro", "macro_rules", "elab", "elab_rules", "initialize",
    "builtin_initialize", "run_cmd", "deriving"].map String.toList

/-- The command pattern at one position: a keyword standing as a token, or `#` and a letter. -/
def commandAt (previous : Option Char) (text : Text) : Option Text :=
  (commands.find? fun keyword => startsToken C previous && keyword.isPrefixOf text &&
      endsToken C (text.drop keyword.length).head?).or
    (match text with
      | '#' :: c :: _ => if c.isAlpha || c == '_' then some ['#', c] else none
      | _ => none)

/-- The first command of a mask. -/
def findCommand (previous : Option Char) : Text → Option Text
  | [] => none
  | c :: rest => (commandAt C previous (c :: rest)).or (findCommand (some c) rest)

/-- `\b` before or after a word: no word character on the other side. -/
def wordEdge (next : Option Char) : Bool := next.all fun c => !C.word c

/-- `\bin\b` somewhere in the text. -/
def mentionsIn (previous : Option Char) : Text → Bool
  | 'i' :: 'n' :: rest =>
    (wordEdge C previous && wordEdge C rest.head?) || mentionsIn (some 'i') ('n' :: rest)
  | c :: rest => mentionsIn (some c) rest
  | [] => false

/-- A line of a mask that opens with `set_option` or `open` has its local `in`. -/
def scopedLine (line : Text) : Bool :=
  let start := line.dropWhile C.space
  let opens := ["set_option", "open"].any fun keyword =>
    keyword.toList.isPrefixOf start && wordEdge C (start.drop keyword.length).head?
  !opens || mentionsIn C none line

def validate_hole_replacement (replacement : Text) : Except ValueError Unit := do
  let mask ← lean_code_mask replacement
  match findCommand C none mask with
  | some command =>
    .error ⟨"a sorry replacement cannot introduce command '" ++ String.ofList command ++ "'"⟩
  | none =>
    if (mask.splitOn '\n').all (scopedLine C) then .ok ()
    else .error ⟨"a sorry replacement cannot introduce an unscoped command"⟩

example : validate_hole_replacement .ascii "by\n  open Nat in simp -- def".toList = .ok () := by
  decide +kernel

/-- An accepted replacement ends outside block comments, strings and quoted names. -/
theorem mask_of_validate {replacement : Text} (h : validate_hole_replacement C replacement = .ok ()) :
    ∃ mask, lean_code_mask replacement = .ok mask := by
  cases hm : lean_code_mask replacement with
  | ok mask => exact ⟨mask, rfl⟩
  | error e =>
    rw [validate_hole_replacement, hm] at h
    cases h

/-! ### Documents -/

structure SourceDocument where
  path : String
  baseline : Text
  replacements : Dict Nat Text := .empty
  imports : List String := []
  generated : Bool := false
  proof_imports : List String := []
deriving DecidableEq

/-- Put the replacement of the numbered span in its place, when it has one. -/
def fillSpan (replacements : Nat → Option Text) (entry : (Nat × Nat) × Nat) (text : Text) : Text :=
  match replacements entry.2 with
  | some replacement => text.take entry.1.1 ++ replacement ++ text.drop entry.1.2
  | none => text

/-- Fill the spans, the last one first so that earlier positions stay valid. -/
def splice (replacements : Nat → Option Text) (spans : List (Nat × Nat)) (text : Text) : Text :=
  spans.zipIdx.foldr (fillSpan replacements) text

/-- The end of `\s*prelude[^\n]*\n` at the start of a text, else its start. -/
def preludeEnd (text : Text) : Nat :=
  let start := text.dropWhile C.space
  let line := start.takeWhile (· ≠ '\n')
  if "prelude".toList.isPrefixOf start && line.length < start.length then
    (text.takeWhile C.space).length + line.length + 1
  else 0

/-- One import line for each added module. -/
def importLines (modules : List String) : Text :=
  modules.flatMap fun module => "import ".toList ++ module.toList ++ ['\n']

/-- Import lines go to the start of a text, behind the `prelude` that must come first. -/
def insertImports (modules : List String) (text : Text) : Text :=
  if modules = [] then text
  else text.take (preludeEnd C text) ++ importLines modules ++ text.drop (preludeEnd C text)

/-- The baseline's holes, looked for only when there is something to put into one. -/
def holeSpans (replacements : Dict Nat Text) (baseline : Text) : Except ValueError (List (Nat × Nat)) :=
  if replacements.items = [] then .ok [] else sorry_spans C baseline

namespace SourceDocument

/-- `dict.fromkeys([*imports, *proof_imports])`: the added modules, each once. -/
def modules (d : SourceDocument) : List String := (d.imports ++ d.proof_imports).eraseDups

/-- The document's replacements with the overrides laid over them. -/
def merged (d : SourceDocument) (overrides : List (Nat × Text)) : Dict Nat Text :=
  overrides.foldl (fun r p => r.set p.1 p.2) d.replacements

def render (d : SourceDocument) (overrides : List (Nat × Text)) : Except ValueError Text := do
  let replacements := d.merged overrides
  replacements.items.forM fun p => validate_hole_replacement C p.2
  let spans ← holeSpans C replacements d.baseline
  if replacements.keys.any (spans.length ≤ ·) then
    .error ⟨"source hole index is no longer valid"⟩
  else
    .ok (insertImports C d.modules (splice replacements.get? spans d.baseline))

end SourceDocument

/-- The holes that rendered scratch still has, by their baseline numbers. -/
def open_holes (replacements : Dict Nat Text) (spans : List (Nat × Nat)) : List Nat :=
  (List.range spans.length).filter fun i => (replacements.get? i).isNone

end LeanFlow.Source
