import LeanFlow.General.Regex
import LeanFlow.Source.Mask

/-! The declarations of a Lean text, found line by line.

`declaration_line_index` looks for lines that start a declaration; a declaration goes
from its line to the last line before the next one that is not an attribute, a comment
or a scope of the next. `declaration_statement_text` cuts one off before its body. -/
namespace LeanFlow.Source
open General

/-! ### Lines -/

/-- The characters at which `splitlines` ends a line. -/
def isLineEnd (c : Char) : Bool :=
  c ∈ ['\n', '\r', '\x0b', '\x0c', '\x1c', '\x1d', '\x1e', '\u0085', '\u2028', '\u2029']

/-- The lines of a text, each with its end; the last line may have none. -/
def split_lines : Text → List (Text × Text)
  | [] => []
  | '\r' :: '\n' :: rest => ([], ['\r', '\n']) :: split_lines rest
  | c :: rest =>
    if isLineEnd c then ([], [c]) :: split_lines rest
    else
      match split_lines rest with
      | [] => [([c], [])]
      | (line, stop) :: lines => (c :: line, stop) :: lines

def splitlines (text : Text) : List Text := (split_lines text).map Prod.fst

/-- The offsets at which lines start, and the length of the text. -/
def line_offsets (text : Text) : List Nat :=
  (split_lines text).foldl (fun offsets line => offsets ++ [offsets.getLast?.getD 0 + (line.1 ++ line.2).length]) [0]

section Strip

variable (C : CharClass)

def lstrip (text : Text) : Text := text.dropWhile C.space

def rstrip (text : Text) : Text := (text.reverse.dropWhile C.space).reverse

def strip (text : Text) : Text := rstrip C (lstrip C text)

end Strip

/-- `"\n".join`. -/
def joinLines (lines : List Text) : Text := ['\n'].intercalate lines

/-! ### Comments -/

/-- Where a scan over comments and strings is. -/
inductive Skip where
  | code
  | line
  /-- In a block comment, inside as many others. -/
  | block (depth : Nat)
  | string
  | quoted
deriving DecidableEq

/-- The text from the next character outside comments, strings and quoted names. -/
def next_significant_character : Skip → Text → Option Text
  | .code, '-' :: '-' :: rest => next_significant_character .line rest
  | .code, '/' :: '-' :: rest => next_significant_character (.block 0) rest
  | .code, '"' :: rest => next_significant_character .string rest
  | .code, '«' :: rest => next_significant_character .quoted rest
  | .code, c :: rest => some (c :: rest)
  | .line, c :: rest => next_significant_character (if c = '\n' then .code else .line) rest
  | .block depth, '/' :: '-' :: rest => next_significant_character (.block (depth + 1)) rest
  | .block 0, '-' :: '/' :: rest => next_significant_character .code rest
  | .block (depth + 1), '-' :: '/' :: rest => next_significant_character (.block depth) rest
  | .block depth, _ :: rest => next_significant_character (.block depth) rest
  | .string, '\\' :: _ :: rest => next_significant_character .string rest
  | .string, ['\\'] => none
  | .string, '"' :: rest => next_significant_character .code rest
  | .string, _ :: rest => next_significant_character .string rest
  | .quoted, c :: rest => next_significant_character (if c = '»' then .code else .quoted) rest
  | _, [] => none

/-- What `strip_lean_comments_and_strings` is inside of. -/
inductive Hidden where
  | none
  | line
  | block (depth : Nat)
  | string
deriving DecidableEq

/-- A text without its comments and strings; line feeds stay, but for those in strings. -/
def strip_lean_comments_and_strings : Hidden → Text → Text
  | .none, '-' :: '-' :: rest => strip_lean_comments_and_strings .line rest
  | .none, '/' :: '-' :: rest => strip_lean_comments_and_strings (.block 0) rest
  | .none, '"' :: rest => strip_lean_comments_and_strings .string rest
  | .none, c :: rest => c :: strip_lean_comments_and_strings .none rest
  | .line, '\n' :: rest => '\n' :: strip_lean_comments_and_strings .none rest
  | .line, _ :: rest => strip_lean_comments_and_strings .line rest
  | .block depth, '/' :: '-' :: rest => strip_lean_comments_and_strings (.block (depth + 1)) rest
  | .block 0, '-' :: '/' :: rest => strip_lean_comments_and_strings .none rest
  | .block (depth + 1), '-' :: '/' :: rest => strip_lean_comments_and_strings (.block depth) rest
  | .block depth, '\n' :: rest => '\n' :: strip_lean_comments_and_strings (.block depth) rest
  | .block depth, _ :: rest => strip_lean_comments_and_strings (.block depth) rest
  | .string, '\\' :: _ :: rest => strip_lean_comments_and_strings .string rest
  | .string, '"' :: rest => strip_lean_comments_and_strings .none rest
  | .string, _ :: rest => strip_lean_comments_and_strings .string rest
  | _, [] => []

/-! ### Statements -/

def declaration_openers : List Char := ['(', '{', '[', '⦃', '⟨']

def declaration_closers : List Char := [')', '}', ']', '⦄', '⟩']

section Statement

variable (C : CharClass)

/-- A keyword on its own; at either end of the text there is none. -/
def standalone_keyword_at (before : Option Char) (text : Text) (keyword : Text) : Bool :=
  let outside (c : Option Char) := c.any fun c => !C.word c && c != '\''
  keyword.isPrefixOf text && outside before && outside (text.drop keyword.length).head?

def type_assignment_keyword_at (before : Option Char) (text : Text) : Bool :=
  ["let", "have"].any fun keyword => standalone_keyword_at C before text keyword.toList

/-- The scan of `declaration_statement_end` from a position on: how many characters are left at the body. -/
def statement_end (whole : Text) : Nat → Nat → Bool → Nat → Text → Nat
  | 0, _, _, _, _ => 0
  | fuel + 1, depth, seen_type_colon, pending, text =>
    match next_significant_character .code text with
    | none => 0
    | some [] => 0
    | some (c :: rest) =>
      let before := whole[whole.length - (rest.length + 1) - 1]?
      if c ∈ declaration_openers then statement_end whole fuel (depth + 1) seen_type_colon pending rest
      else if c ∈ declaration_closers then statement_end whole fuel (depth - 1) seen_type_colon pending rest
      else if depth = 0 ∧ seen_type_colon ∧ (c = 'l' ∨ c = 'h') ∧
          type_assignment_keyword_at C (if rest.length + 1 = whole.length then none else before) (c :: rest) then
        statement_end whole fuel depth seen_type_colon (pending + 1) rest
      else if depth = 0 ∧ c = ':' then
        if rest.head? = some '=' then
          if seen_type_colon ∧ pending ≠ 0 then statement_end whole fuel depth seen_type_colon (pending - 1) (rest.drop 1)
          else rest.length + 1
        else statement_end whole fuel depth true pending rest
      else statement_end whole fuel depth seen_type_colon pending rest

/-- The assignment starting a declaration body, or the length of the text. -/
def declaration_statement_end (text : Text) : Nat := text.length - statement_end C text text.length 0 false 0 text

/-- One declaration through its complete statement, without its body. -/
def declaration_statement_text (text : Text) : Text :=
  let declaration := strip C text
  strip C (declaration.take (declaration_statement_end C declaration))

end Statement

/-! ### Declaration lines -/

/-- What a regular expression looks for, character by character. -/
abbrev Pattern := Regex Char

namespace Pattern

variable (C : CharClass)

def text (w : String) : Pattern := Regex.word w.toList

def texts (w : String) (ws : List String) : Pattern := Regex.any (text w) (ws.map text)

def space : Pattern := .one C.space

/-- `\b`. -/
def boundary : Pattern := .edge fun before next => before.any C.word != next.any C.word

/-- `^` without `re.MULTILINE`. -/
def start : Pattern := .edge fun before _ => before.isNone

/-- `^` with `re.MULTILINE`. -/
def line_start : Pattern := .edge fun before _ => before.all (· == '\n')

/-- `$` in a text without line feeds. -/
def stop : Pattern := .edge fun _ next => next.isNone

/-- `[^\n]*`. -/
def line : Pattern := .star (.one (· != '\n'))

/-- `(?:set_option|variable|include|omit|attribute|open(?:\s+scoped)?)`. -/
def scoped_command_prefix : Pattern :=
  .any (text "set_option") [text "variable", text "include", text "omit", text "attribute",
    .seq (text "open") (.opt (.seq (.plus (space C)) (text "scoped")))]

/-- `@[A-Za-z0-9_.]+`. -/
def bare_attribute : Pattern := .seq (text "@") (.plus (.one fun c => c.isAlphanum || c == '_' || c == '.'))

/-- `[A-Za-z0-9_'-]`. -/
def isNameChar (c : Char) : Bool := c.isAlphanum || c == '_' || c == '\'' || c == '-'

def declaration_name : Pattern :=
  .seq (.plus (.one isNameChar)) (.star (.seq (text ".") (.plus (.one isNameChar))))

def declaration_kind : Pattern :=
  texts "theorem" ["lemma", "example", "def", "abbrev", "opaque", "axiom", "instance", "class", "structure", "inductive"]

/-- `LEAN_DECLARATION_PREAMBLE_RE`: scopes, attributes and modifiers, the kind and the name. -/
def declaration_preamble : Pattern :=
  .all [start, .star (space C),
    .star (.all [ scoped_command_prefix C, boundary C, line, boundary C, text "in", .plus (space C)]),
    .star (.seq (.any (.all [text "@[", .star (.one (· != ']')), text "]"]) [bare_attribute, text "private",
      text "protected", text "noncomputable", text "unsafe", text "partial", text "nonrec", text "scoped", text "local"])
      (.plus (space C))),
    .group 1 declaration_kind, .plus (space C), .opt (.group 2 declaration_name)]

/-- A line that is only the scope of the command after it. -/
def scoped_command_wrapper_line : Pattern :=
  .all [start, .star (space C), scoped_command_prefix C, boundary C, line, boundary C, text "in", .star (space C), stop]

/-- `\bsorry\b`. -/
def sorry_word : Pattern := .all [boundary C, Regex.word hole, boundary C]

end Pattern

section Index

variable (C : CharClass)

/-- Go back from a line over those that satisfy `p`; lines are numbered from one. -/
def back_while (lines : List Text) (start : Nat) (p : Text → Bool) : Nat → Nat
  | 0 => 0
  | value + 1 => if start ≤ value + 1 ∧ p (lines[value]?.getD []) then back_while lines start p value else value + 1

def blankLine (line : Text) : Bool := strip C line == []

def skip_blank_lines (lines : List Text) (start value : Nat) : Nat := back_while lines start (blankLine C) value

/-- The offset in a text at which its first bracket is closed. -/
def closed_at : Nat → Nat → Text → Option Nat
  | _, _, [] => none
  | depth, offset, c :: rest =>
    if c = '[' then closed_at (depth + 1) (offset + 1) rest
    else if c = ']' then
      if depth = 1 then some offset else closed_at (depth - 1) (offset + 1) rest
    else closed_at depth (offset + 1) rest

/-- The attribute that ends the lines, by the number of lines before it. -/
def attribute_start (sanitized : List Text) : Nat → Option Nat
  | 0 => none
  | candidate + 1 =>
    let fragment := strip C (joinLines (sanitized.drop candidate))
    match if "@[".toList.isPrefixOf fragment then closed_at 0 1 (fragment.drop 1) else none with
    | some offset => if strip C (fragment.drop (offset + 1)) = [] then some candidate else attribute_start sanitized candidate
    | none => attribute_start sanitized candidate

/-- Skip one comment-aware standalone attribute suffix, including multiline forms. -/
def skip_standalone_attribute (lines : List Text) (start value : Nat) : Nat :=
  if value < start then value
  else
    let sanitized := splitlines (strip_lean_comments_and_strings .none (joinLines ((lines.take value).drop (start - 1))))
    match sanitized.getLast? with
    | none => value
    | some line =>
      let last := strip C line
      if ((Pattern.bare_attribute).matchStart last).any (·.rest.isEmpty) then value - 1
      else if last.getLast? ≠ some ']' then value
      else
        match attribute_start C sanitized sanitized.length with
        | some candidate => start - 1 + candidate
        | none => value

/-- The attributes that end the lines, one after the other. -/
def skip_attributes (lines : List Text) (start : Nat) : Nat → Nat → Nat
  | 0, idx => idx
  | fuel + 1, idx =>
    if idx < start then idx
    else
      let next := skip_standalone_attribute C lines start idx
      if next = idx then idx else skip_attributes lines start fuel next

/-- The line that opens the block comment which the line `idx` is inside of. -/
def comment_start (lines : List Text) (start : Nat) : Nat → Option Nat
  | 0 => none
  | idx + 1 =>
    if idx + 1 < start then none
    else if "/-".toList.isPrefixOf (strip C (lines[idx]?.getD [])) then some idx
    else comment_start lines start idx

/-- The scopes that end the lines, with the blank lines before each. -/
def skip_wrappers (lines : List Text) (start : Nat) : Nat → Nat → Nat
  | 0, idx => idx
  | fuel + 1, idx =>
    if start ≤ idx ∧ ((Pattern.scoped_command_wrapper_line C).matchStart (lines[idx - 1]?.getD [])).isSome then
      skip_wrappers lines start fuel (skip_blank_lines C lines start (idx - 1))
    else idx

/-- One round of `trim_declaration_region_end`, and whether the block comment at the end has a start. -/
def trim_round (lines : List Text) (start idx : Nat) : Nat × Bool :=
  let idx := skip_blank_lines C lines start (skip_attributes C lines start (lines.length + 1) idx)
  let idx := skip_blank_lines C lines start (back_while lines start (fun line => "--".toList.isPrefixOf (strip C line)) idx)
  let last := strip C (lines[idx - 1]?.getD [])
  if start ≤ idx ∧ "-/".toList.isSuffixOf last then
    match if "/-".toList.isPrefixOf last then some (idx - 1) else comment_start C lines start (idx - 1) with
    | none => (idx, false)
    | some before => (skip_wrappers C lines start (lines.length + 1) (skip_blank_lines C lines start before), true)
  else (skip_wrappers C lines start (lines.length + 1) idx, true)

def trim_rounds (lines : List Text) (start : Nat) : Nat → Nat → Nat
  | 0, idx => idx
  | fuel + 1, idx =>
    if idx < start then idx
    else
      let round := trim_round C lines start idx
      if round.2 = false ∨ round.1 = idx then round.1 else trim_rounds lines start fuel round.1

/-- The last line owned by a declaration before the next declaration preamble. -/
def trim_declaration_region_end (lines : List Text) (start : Nat) (next_start : Option Nat) : Nat :=
  let stop :=
    match next_start with
    | none => lines.length
    | some next => max start (min lines.length (next - 1))
  max start (trim_rounds C lines start (lines.length + 1) (skip_blank_lines C lines start stop))

/-- A declaration of an index. -/
structure Entry where
  name : Text
  kind : Text
  line : Nat
  end_line : Nat
  text : Text
  has_sorry : Bool
deriving DecidableEq

/-- The declaration that a line starts: its kind and its name. -/
def declaration_line (number : Nat) (line : Text) : Option (Text × Text) :=
  let stripped := strip C line
  if stripped = [] ∨ "--".toList.isPrefixOf stripped then none
  else
    match (Pattern.declaration_preamble C).matchStart line with
    | none => none
    | some found =>
      let kind := (found.group 1).getD []
      let name := strip C ((found.group 2).getD [])
      some (kind, if name = [] then s!"[anonymous {String.ofList kind} @ line {number}]".toList else name)

/-- The lines that start declarations, with their numbers, kinds and names. -/
def declaration_lines (number : Nat) : List Text → List (Nat × Text × Text)
  | [] => []
  | line :: lines =>
    match declaration_line C number line with
    | some found => (number, found) :: declaration_lines (number + 1) lines
    | none => declaration_lines (number + 1) lines

def index_entries (lines : List Text) : List (Nat × Text × Text) → List Entry
  | [] => []
  | (line, kind, name) :: rest =>
    let end_line := trim_declaration_region_end C lines line (rest.head?.map (·.1))
    let text := strip C (joinLines ((lines.take end_line).drop (line - 1)))
    let has_sorry := (Regex.search (Pattern.sorry_word C) none (strip_lean_comments_and_strings .none text)).isSome
    { name, kind, line, end_line, text, has_sorry } :: index_entries lines rest

def declaration_line_index_from_text (content : Text) : List Entry :=
  let lines := splitlines content
  index_entries C lines (declaration_lines C 1 lines)

end Index

end LeanFlow.Source
