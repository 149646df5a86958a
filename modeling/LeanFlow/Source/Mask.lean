import LeanFlow.General.Reader

/-! Lean text as the controller reads it.

`lean_code_mask` blanks comments, strings and quoted names and keeps every
position; `sorry_spans` finds the literal `sorry` tokens of what is left. The
source is one scan with inner loops: to the end of a line, of a nested block
comment, of a string or of a quoted name. Here the scan is a reader with one
symbol of lookahead and an inner loop is a mode of it; `second m` is the second
character of a two-character token, after which the scan is in `m`. -/
namespace LeanFlow.Source
open General

/-- Python text: a list of code points. -/
abbrev Text := List Char

/-- A `ValueError` and its message. -/
structure ValueError where
  message : String
deriving DecidableEq, Repr

/-- The Unicode tables behind `\w` and `\s`, known on ASCII. -/
structure CharClass where
  word : Char → Bool
  space : Char → Bool
  word_ascii : ∀ c : Char, c.val < 128 → word c = (c.isAlphanum || c == '_')
  space_ascii : ∀ c : Char, c.val < 128 →
    space c = (c == ' ' || (9 ≤ c.val && c.val ≤ 13) || (28 ≤ c.val && c.val ≤ 31))

/-- Tables that classify nothing beyond ASCII. -/
def CharClass.ascii : CharClass where
  word c := c.isAlphanum || c == '_'
  space c := c == ' ' || (9 ≤ c.val && c.val ≤ 13) || (28 ≤ c.val && c.val ≤ 31)
  word_ascii _ _ := rfl
  space_ascii _ _ := rfl

/-! ### The mask -/

inductive Mode where
  | code
  | line
  | block (depth : Nat)
  | string
  | quoted
  | second (m : Mode)
deriving DecidableEq, Repr

/-- A blanked position: newlines stay. -/
def blank (c : Char) : Char := if c = '\n' then c else ' '

/-- What the scan writes for `c` when `next` comes after it, and the mode after `c`. -/
def scanChar : Mode → Char → Option Char → Char × Mode
  | .second m, c, _ => (blank c, m)
  | .code, c, next =>
    if c = '-' ∧ next = some '-' then (' ', .second .line)
    else if c = '/' ∧ next = some '-' then (' ', .second (.block 1))
    else if c = '"' then (' ', .string)
    else if c = '«' then (' ', .quoted)
    else (c, .code)
  | .line, c, _ => (blank c, if c = '\n' then .code else .line)
  | .block depth, c, next =>
    if c = '/' ∧ next = some '-' then (' ', .second (.block (depth + 1)))
    else if c = '-' ∧ next = some '/' then
      (' ', .second (if depth ≤ 1 then .code else .block (depth - 1)))
    else (blank c, .block depth)
  | .string, c, _ =>
    if c = '\\' then (' ', .second .string) else (blank c, if c = '"' then .code else .string)
  | .quoted, c, _ => (blank c, if c = '»' then .code else .quoted)

def scanner : Reader Mode Char Char := ⟨scanChar⟩

/-- What a text that ends in this mode raises. -/
def Mode.unterminated : Mode → Option ValueError
  | .code | .line => none
  | .block _ => some ⟨"unterminated Lean block comment"⟩
  | .string | .quoted => some ⟨"unterminated Lean string or quoted name"⟩
  | .second m => m.unterminated

def lean_code_mask (source : Text) : Except ValueError Text :=
  match (scanner.read .code source none).2.unterminated with
  | some e => .error e
  | none => .ok (scanner.read .code source none).1

theorem mask_eq_ok {source mask : Text} :
    lean_code_mask source = .ok mask ↔
      (scanner.read .code source none).1 = mask ∧
        (scanner.read .code source none).2.unterminated = none := by
  unfold lean_code_mask
  split
  · rename_i e he
    simp [he]
  · rename_i hn
    simp [hn]

/-- The mask keeps every position. -/
theorem length_mask {source mask : Text} (h : lean_code_mask source = .ok mask) :
    mask.length = source.length := by
  rw [← (mask_eq_ok.mp h).1, Reader.length_read]

example : lean_code_mask "a -- x\n/- /- b -/ -/ \"c\\\"\" «d»".toList =
    .ok "a     \n                       ".toList := by decide

/-! ### Literal `sorry` tokens -/

section Spans
variable (C : CharClass)

/-- `(?<![\w'.])`: the character before a token is none of these. -/
def startsToken (previous : Option Char) : Bool :=
  previous.all fun c => !(C.word c || c == '\'' || c == '.')

/-- `(?![\w'])`: the character after a token is none of these. -/
def endsToken (next : Option Char) : Bool :=
  next.all fun c => !(C.word c || c == '\'')

/-- The literal hole. -/
def hole : Text := ['s', 'o', 'r', 'r', 'y']

/-- The pattern `(?<![\w'.])sorry(?![\w'])` at one position. -/
def tokenAt (previous : Option Char) (text : Text) : Bool :=
  startsToken C previous && hole.isPrefixOf text && endsToken C (text.drop 5).head?

/-- The tokens of a mask from the position `pos` on, `previous` being the character
before it. No token starts inside another, so the search need not skip what it matched. -/
def tokens (previous : Option Char) (pos : Nat) : Text → List (Nat × Nat)
  | [] => []
  | c :: rest =>
    if tokenAt C previous (c :: rest) then (pos, pos + 5) :: tokens (some c) (pos + 1) rest
    else tokens (some c) (pos + 1) rest

def sorry_spans (source : Text) : Except ValueError (List (Nat × Nat)) :=
  (lean_code_mask source).map (tokens C none 0)

end Spans

example : sorry_spans .ascii "(sorry, sorry', A.sorry, -- sorry\nsorry)".toList =
    .ok [(1, 6), (34, 39)] := by decide +kernel

end LeanFlow.Source
