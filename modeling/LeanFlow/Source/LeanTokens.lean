import LeanFlow.Source.Identifiers

/-! Lean text as Lean reads it.

`lex` cuts a text into the tokens of Lean's own reader, with comments and single white
space characters as tokens too. The table of symbols is Lean's token table; the longest one
that fits is read. `lean_code` blanks the comments, the strings and the quoted parts of names.

The mask sees no character literal, no raw string and no symbol. It leaves the code of a text
just when none of these holds what it takes for a comment, a string or a quoted name
(`mask_eq_code`). -/
namespace LeanFlow.Source
open General

inductive TokenKind where
  | symbol
  | name
  | number
  | character
  | string
  | raw_string
  | quoted
  | line_comment
  | block_comment
deriving DecidableEq

structure LeanToken where
  kind : TokenKind
  text : Text
deriving DecidableEq

/-- White space of Lean. -/
def lean_space (c : Char) : Bool := c == ' ' || c == '\t' || c == '\r' || c == '\n'

/-- A character that a name starts with. -/
def id_first (c : Char) : Bool := c.isAlpha || c == '_' || isLetterLike c

/-! ### Lengths

How far a token goes, counted from behind its opening characters; none when it does not end. -/

def line_length : Text → Nat
  | [] => 0
  | c :: rest => if c = '\n' then 1 else line_length rest + 1

def block_length : Nat → Text → Option Nat
  | depth, c :: d :: rest =>
    if c = '/' ∧ d = '-' then (block_length (depth + 1) rest).map (· + 2)
    else if c = '-' ∧ d = '/' then if depth ≤ 1 then some 2 else (block_length (depth - 1) rest).map (· + 2)
    else (block_length depth (d :: rest)).map (· + 1)
  | _, _ => none

def string_length : Text → Option Nat
  | [] => none
  | [c] => if c = '"' then some 1 else none
  | c :: d :: rest =>
    if c = '\\' then (string_length rest).map (· + 2)
    else if c = '"' then some 1
    else (string_length (d :: rest)).map (· + 1)

def quoted_length : Text → Option Nat
  | [] => none
  | c :: rest => if c = '»' then some 1 else (quoted_length rest).map (· + 1)

/-- A raw string ends with as many `#` as stand before it. -/
def raw_length (hashes : Nat) : Text → Option Nat
  | [] => none
  | c :: rest =>
    if c = '"' ∧ rest.take hashes = List.replicate hashes '#' then some (hashes + 1) else (raw_length hashes rest).map (· + 1)

def hex_digit (c : Char) : Bool := c.isDigit || ('a' ≤ c && c ≤ 'f') || ('A' ≤ c && c ≤ 'F')

/-- The character behind a `\` of a character literal. -/
def escape_length : Text → Option Nat
  | 'x' :: a :: b :: _ => if hex_digit a && hex_digit b then some 3 else none
  | 'u' :: a :: b :: c :: d :: _ => if [a, b, c, d].all hex_digit then some 5 else none
  | c :: _ => if ['\\', '"', '\'', 'r', 'n', 't'].contains c then some 1 else none
  | [] => none

def character_length : Text → Option Nat
  | [] => none
  | c :: rest => do
    let content ← if c = '\\' then escape_length rest else some 0
    if (rest.drop content).head? = some '\'' then some (content + 2) else none

def number_length (text : Text) : Nat :=
  let radix (p : Char → Bool) := 2 + ((text.drop 2).takeWhile fun c => p c || c == '_').length
  match text with
  | '0' :: c :: _ =>
    if c == 'x' || c == 'X' then radix hex_digit
    else if c == 'b' || c == 'B' || c == 'o' || c == 'O' then radix Char.isDigit
    else decimal
  | _ => decimal
where
  decimal : Nat :=
    let digits := (text.takeWhile fun c => c.isDigit || c == '_').length
    match text.drop digits with
    | e :: rest => if (e == 'e' || e == 'E') && rest.head?.any Char.isDigit then digits + 1 + (rest.takeWhile Char.isDigit).length else digits
    | [] => digits

def symbol_length (symbols : List Text) (text : Text) : Nat :=
  (symbols.filter fun symbol => symbol.isPrefixOf text).foldl (fun n symbol => max n symbol.length) 1

/-! ### Tokens -/

/-- The token at the start of a text, as its kind and its length. Behind a part of a name
a dot and a letter, or a dot and a quoted part, go on with the name. -/
def next_token (symbols : List Text) (behind_name : Bool) : Text → Option (TokenKind × Nat)
  | [] => none
  | c :: rest =>
    if c = '-' ∧ rest.head? = some '-' then some (.line_comment, line_length rest + 1)
    else if c = '/' ∧ rest.head? = some '-' then
      let opening := if rest.tail.head? = some '-' ∨ rest.tail.head? = some '!' then 3 else 2
      (block_length 1 ((c :: rest).drop opening)).map fun n => (.block_comment, n + opening)
    else if c = '"' then (string_length rest).map fun n => (.string, n + 1)
    else if c = '\'' ∧ rest.head? ≠ some '\'' then (character_length rest).map fun n => (.character, n + 1)
    else if behind_name ∧ c = '.' ∧ rest.head?.any id_first = true then some (.name, (rest.takeWhile isIdentifierChar).length + 1)
    else if behind_name ∧ c = '.' ∧ rest.head? = some '«' then some (.name, 1)
    else if c.isDigit then some (.number, number_length (c :: rest))
    else if c = 'r' ∧ (rest.dropWhile (· = '#')).head? = some '"' then
      let hashes := (rest.takeWhile (· = '#')).length
      (raw_length hashes (rest.drop (hashes + 1))).map fun n => (.raw_string, n + hashes + 2)
    else if c = '«' then (quoted_length rest).map fun n => (.quoted, n + 1)
    else
      let name := if id_first c then (rest.takeWhile isIdentifierChar).length + 1 else 0
      let symbol := symbol_length symbols (c :: rest)
      if name = 0 ∨ name < symbol then some (.symbol, symbol) else some (.name, name)

/-- The tokens of a text; none for a text that Lean does not read to its end. -/
def lex_from (symbols : List Text) : Nat → Bool → Text → Option (List LeanToken)
  | _, _, [] => some []
  | 0, _, _ => none
  | fuel + 1, behind_name, text => do
    let (kind, n) ← next_token symbols behind_name text
    let tokens ← lex_from symbols fuel (kind == .name || kind == .quoted) (text.drop n)
    return ⟨kind, text.take n⟩ :: tokens

def lex (symbols : List Text) (text : Text) : Option (List LeanToken) := lex_from symbols text.length false text

def TokenKind.hidden : TokenKind → Bool
  | string | raw_string | quoted | line_comment | block_comment => true
  | symbol | name | number | character => false

/-- What is left of a token when comments, strings and quoted names are blanked. -/
def LeanToken.code (token : LeanToken) : Text := if token.kind.hidden then token.text.map blank else token.text

def lean_code (tokens : List LeanToken) : Text := tokens.flatMap LeanToken.code

example : (lex [] "f '\"' -- a\n".toList).map lean_code = some "f '\"'     \n".toList := by decide +kernel

/-! ### What a token is -/

/-- The token that a text starts with, kind by kind. -/
inductive Starts (symbols : List Text) (behind_name : Bool) : Text → TokenKind → Nat → Prop
  | line_comment (rest : Text) : Starts symbols behind_name ('-' :: '-' :: rest) .line_comment (line_length rest + 2)
  | block_comment {rest : Text} {opening k : Nat} (hopening : opening = if rest.head? = some '-' ∨ rest.head? = some '!' then 3 else 2)
      (hk : block_length 1 (('/' :: '-' :: rest).drop opening) = some k) :
      Starts symbols behind_name ('/' :: '-' :: rest) .block_comment (k + opening)
  | string {rest : Text} {k : Nat} (hk : string_length rest = some k) : Starts symbols behind_name ('"' :: rest) .string (k + 1)
  | character {rest : Text} {k : Nat} (hk : character_length rest = some k) : Starts symbols behind_name ('\'' :: rest) .character (k + 1)
  | part (rest : Text) (hbehind : behind_name = true) (hfirst : rest.head?.any id_first = true) :
      Starts symbols behind_name ('.' :: rest) .name ((rest.takeWhile isIdentifierChar).length + 1)
  | dot (rest : Text) (hbehind : behind_name = true) : Starts symbols behind_name ('.' :: '«' :: rest) .name 1
  | number {c : Char} (rest : Text) (hdigit : c.isDigit = true) : Starts symbols behind_name (c :: rest) .number (number_length (c :: rest))
  | raw_string (rest : Text) (n : Nat) : Starts symbols behind_name ('r' :: rest) .raw_string (n + 1)
  | quoted {rest : Text} {k : Nat} (hk : quoted_length rest = some k) : Starts symbols behind_name ('«' :: rest) .quoted (k + 1)
  | symbol (c : Char) (rest : Text) : Starts symbols behind_name (c :: rest) .symbol (symbol_length symbols (c :: rest))
  | name {c : Char} (rest : Text) (hfirst : id_first c = true) :
      Starts symbols behind_name (c :: rest) .name ((rest.takeWhile isIdentifierChar).length + 1)

theorem head_eq {rest : Text} {c : Char} (h : rest.head? = some c) : ∃ more, rest = c :: more := by
  cases rest with
  | nil => cases h
  | cons d more => exact ⟨more, by rw [Option.some.inj h]⟩

theorem starts_of_next {symbols : List Text} {behind_name : Bool} {text : Text} {kind : TokenKind} {n : Nat}
    (h : next_token symbols behind_name text = some (kind, n)) : Starts symbols behind_name text kind n := by
  have hpair {a b : TokenKind × Nat} (h : some a = some b) : a = b := Option.some.inj h
  cases text with
  | nil => cases h
  | cons c rest =>
    rw [next_token] at h
    by_cases hline : c = '-' ∧ rest.head? = some '-'
    · rw [if_pos hline] at h
      obtain ⟨rfl, hnext⟩ := hline
      obtain ⟨more, rfl⟩ := head_eq hnext
      cases hpair h
      exact .line_comment more
    rw [if_neg hline] at h
    by_cases hblock : c = '/' ∧ rest.head? = some '-'
    · rw [if_pos hblock] at h
      obtain ⟨rfl, hnext⟩ := hblock
      obtain ⟨more, rfl⟩ := head_eq hnext
      obtain ⟨k, hk, hkind⟩ := Option.map_eq_some_iff.mp h
      cases hkind
      exact .block_comment rfl hk
    rw [if_neg hblock] at h
    by_cases hstring : c = '"'
    · rw [if_pos hstring] at h
      obtain ⟨k, hk, hkind⟩ := Option.map_eq_some_iff.mp h
      cases hkind
      exact hstring ▸ .string hk
    rw [if_neg hstring] at h
    by_cases hcharacter : c = '\'' ∧ rest.head? ≠ some '\''
    · rw [if_pos hcharacter] at h
      obtain ⟨k, hk, hkind⟩ := Option.map_eq_some_iff.mp h
      cases hkind
      exact hcharacter.1 ▸ .character hk
    rw [if_neg hcharacter] at h
    by_cases hpart : behind_name = true ∧ c = '.' ∧ rest.head?.any id_first = true
    · rw [if_pos hpart] at h
      cases hpair h
      exact hpart.2.1 ▸ .part rest hpart.1 hpart.2.2
    rw [if_neg hpart] at h
    by_cases hdot : behind_name = true ∧ c = '.' ∧ rest.head? = some '«'
    · rw [if_pos hdot] at h
      obtain ⟨more, rfl⟩ := head_eq hdot.2.2
      cases hpair h
      exact hdot.2.1 ▸ .dot more hdot.1
    rw [if_neg hdot] at h
    by_cases hdigit : c.isDigit = true
    · rw [if_pos hdigit] at h
      cases hpair h
      exact .number rest hdigit
    rw [if_neg hdigit] at h
    by_cases hraw : c = 'r' ∧ (rest.dropWhile (· = '#')).head? = some '"'
    · rw [if_pos hraw] at h
      obtain ⟨k, -, hkind⟩ := Option.map_eq_some_iff.mp h
      cases hkind
      exact hraw.1 ▸ .raw_string rest _
    rw [if_neg hraw] at h
    by_cases hquoted : c = '«'
    · rw [if_pos hquoted] at h
      obtain ⟨k, hk, hkind⟩ := Option.map_eq_some_iff.mp h
      cases hkind
      exact hquoted ▸ .quoted hk
    rw [if_neg hquoted] at h
    dsimp only at h
    by_cases hfirst : id_first c = true
    · rw [if_pos hfirst] at h
      split at h
      · cases hpair h
        exact .symbol c rest
      · cases hpair h
        exact .name rest hfirst
    · rw [if_neg hfirst, if_pos (Or.inl rfl)] at h
      cases hpair h
      exact .symbol c rest

theorem space_of_lean {C : CharClass} {c : Char} (h : lean_space c = true) : C.space c = true := by
  simp only [lean_space, Bool.or_eq_true, beq_iff_eq] at h
  rcases h with ((rfl | rfl) | rfl) | rfl <;> simp [C.space_ascii]

/-! ### What the mask takes for code -/

/-- What opens a comment, a string or a quoted name for the mask. -/
def opens_hidden (c : Char) (next : Option Char) : Bool := c == '"' || c == '«' || ((c == '-' || c == '/') && next == some '-')

/-- Nothing of a text opens anything before the character `x`. -/
def clean : Text → Option Char → Bool
  | [], _ => true
  | c :: rest, x => !opens_hidden c (Reader.follower rest x) && clean rest x

/-- The mask reads every token of the text as Lean does. -/
def well_seen : List LeanToken → Bool
  | [] => true
  | token :: tokens =>
    (if token.kind.hidden then token.kind != .raw_string else clean token.text (tokens.flatMap (·.text)).head?) && well_seen tokens

theorem scan_open {c : Char} {next : Option Char} : opens_hidden c next = false ↔ (scanChar .code c next).1 = c := by
  have hcode : scanChar .code c next =
      if c = '-' ∧ next = some '-' then (' ', .second .line)
      else if c = '/' ∧ next = some '-' then (' ', .second (.block 1))
      else if c = '"' then (' ', .string)
      else if c = '«' then (' ', .quoted)
      else (c, .code) := rfl
  rw [hcode]
  unfold opens_hidden
  split_ifs with h1 h2 h3 h4
  · simp [h1]
  · simp [h2]
  · simp [h3]
  · simp [h4]
  · simp only [Bool.or_eq_false_iff, Bool.and_eq_false_iff, beq_eq_false_iff_ne, iff_true]
    refine ⟨⟨h3, h4⟩, ?_⟩
    by_cases hnext : next = some '-'
    · exact Or.inl ⟨fun h => h1 ⟨h, hnext⟩, fun h => h2 ⟨h, hnext⟩⟩
    · exact Or.inr hnext

theorem scan_code {c : Char} {next : Option Char} (h : (scanChar .code c next).1 = c) : scanChar .code c next = (c, .code) := by
  by_cases hspace : Visible c
  · exact (@visible_step .code c next (by rwa [h])).2
  · unfold Visible at hspace
    by_cases hc : c = ' '
    · subst hc
      rfl
    · obtain rfl : c = '\n' := by
        by_contra hline
        exact hspace ⟨hc, hline⟩
      rfl

theorem read_clean {text : Text} {x : Option Char} (h : clean text x = true) : scanner.read .code text x = (text, .code) := by
  induction text with
  | nil => rfl
  | cons c rest ih =>
    obtain ⟨hc, hrest⟩ := Bool.and_eq_true_iff.mp h
    rw [Bool.not_eq_true'] at hc
    have hstep : scanner.step .code c (Reader.follower rest x) = (c, .code) := scan_code (scan_open.mp hc)
    rw [Reader.read_cons, hstep, ih hrest]

theorem clean_of_read {text : Text} {x : Option Char} (h : (scanner.read .code text x).1 = text) : clean text x = true := by
  induction text with
  | nil => rfl
  | cons c rest ih =>
    rw [Reader.read_cons] at h
    obtain ⟨hc, hrest⟩ := List.cons.inj h
    have hstep : scanner.step .code c (Reader.follower rest x) = (c, .code) := scan_code hc
    rw [hstep] at hrest
    rw [clean, scan_open.mpr hc, ih hrest]
    rfl

/-! ### What the mask blanks -/

theorem block_length_pos {depth : Nat} {text : Text} {n : Nat} (h : block_length depth text = some n) : 0 < n := by
  unfold block_length at h
  split at h
  · split_ifs at h
    · obtain ⟨m, -, rfl⟩ := Option.map_eq_some_iff.mp h
      omega
    · cases h
      decide
    · obtain ⟨m, -, rfl⟩ := Option.map_eq_some_iff.mp h
      omega
    · obtain ⟨m, -, rfl⟩ := Option.map_eq_some_iff.mp h
      omega
  · cases h

theorem step_block {depth : Nat} {c : Char} {next : Option Char} : scanner.step (.block depth) c next =
    if c = '/' ∧ next = some '-' then (' ', .second (.block (depth + 1)))
    else if c = '-' ∧ next = some '/' then (' ', .second (if depth ≤ 1 then .code else .block (depth - 1)))
    else (blank c, .block depth) := rfl

theorem step_second {m : Mode} {c : Char} {next : Option Char} : scanner.step (.second m) c next = (blank c, m) := rfl

/-- A block comment is blanked from inside it to its end. -/
theorem read_block {depth : Nat} {text : Text} {n : Nat} (h : block_length depth text = some n) (x : Option Char) :
    scanner.read (.block depth) (text.take n) x = ((text.take n).map blank, .code) := by
  fun_induction block_length depth text generalizing n with
  | case1 depth c d rest hopen ih =>
    obtain ⟨m, hm, rfl⟩ := Option.map_eq_some_iff.mp h
    rw [List.take_succ_cons, List.take_succ_cons, Reader.read_cons, Reader.follower_cons, step_block, if_pos ⟨hopen.1, by rw [hopen.2]⟩,
      Reader.read_cons, step_second, ih hm, hopen.1]
    rfl
  | case2 depth c d rest _ hclose hdepth =>
    obtain rfl := Option.some.inj h
    rw [List.take_succ_cons, List.take_succ_cons, Reader.read_cons, Reader.follower_cons, step_block, if_neg, if_pos ⟨hclose.1, by rw [hclose.2]⟩,
      Reader.read_cons, step_second, if_pos hdepth, hclose.1]
    · rfl
    · rintro ⟨rfl, -⟩
      exact absurd hclose.1 (by decide)
  | case3 depth c d rest _ hclose hdepth ih =>
    obtain ⟨m, hm, rfl⟩ := Option.map_eq_some_iff.mp h
    rw [List.take_succ_cons, List.take_succ_cons, Reader.read_cons, Reader.follower_cons, step_block, if_neg, if_pos ⟨hclose.1, by rw [hclose.2]⟩,
      Reader.read_cons, step_second, if_neg hdepth, ih hm, hclose.1]
    · rfl
    · rintro ⟨rfl, -⟩
      exact absurd hclose.1 (by decide)
  | case4 depth c d rest hopen hclose ih =>
    obtain ⟨m, hm, rfl⟩ := Option.map_eq_some_iff.mp h
    have hfollower : Reader.follower ((d :: rest).take m) x = some d := by
      obtain ⟨k, rfl⟩ := Nat.exists_eq_add_one.mpr (block_length_pos hm)
      rw [List.take_succ_cons, Reader.follower_cons]
    rw [List.take_succ_cons, Reader.read_cons, hfollower, step_block, if_neg (by simpa using hopen), if_neg (by simpa using hclose), ih hm]
    rfl
  | case5 => cases h

/-- A string is blanked from inside it to its end. -/
theorem read_string {text : Text} {n : Nat} (h : string_length text = some n) (x : Option Char) :
    scanner.read .string (text.take n) x = ((text.take n).map blank, .code) := by
  have hstep (c : Char) (next : Option Char) : scanner.step .string c next =
      if c = '\\' then (' ', .second .string) else (blank c, if c = '"' then .code else .string) := rfl
  fun_induction string_length text generalizing n with
  | case1 => cases h
  | case2 =>
    obtain rfl := Option.some.inj h
    rfl
  | case3 => cases h
  | case4 d rest ih =>
    obtain ⟨m, hm, rfl⟩ := Option.map_eq_some_iff.mp h
    rw [List.take_succ_cons, List.take_succ_cons, Reader.read_cons, hstep, if_pos rfl, Reader.read_cons, step_second, ih hm]
    rfl
  | case5 d rest _ =>
    obtain rfl := Option.some.inj h
    rfl
  | case6 c d rest hescape hclose ih =>
    obtain ⟨m, hm, rfl⟩ := Option.map_eq_some_iff.mp h
    rw [List.take_succ_cons, Reader.read_cons, hstep, if_neg hescape, if_neg hclose, ih hm]
    rfl

theorem read_quoted {text : Text} {n : Nat} (h : quoted_length text = some n) (x : Option Char) :
    scanner.read .quoted (text.take n) x = ((text.take n).map blank, .code) := by
  fun_induction quoted_length text generalizing n with
  | case1 => cases h
  | case2 rest =>
    obtain rfl := Option.some.inj h
    rfl
  | case3 c rest hclose ih =>
    obtain ⟨m, hm, rfl⟩ := Option.map_eq_some_iff.mp h
    have hstep (next : Option Char) : scanner.step .quoted c next = (blank c, .quoted) := by
      show (blank c, if c = '»' then Mode.code else .quoted) = _
      rw [if_neg hclose]
    rw [List.take_succ_cons, Reader.read_cons, hstep, ih hm]
    rfl

/-- A line comment is blanked, and ends with its line or with the text. -/
theorem read_line_comment (text : Text) (x : Option Char) : ∃ m,
    scanner.read .line (text.take (line_length text)) x = ((text.take (line_length text)).map blank, m) ∧
      (m = .code ∨ text.drop (line_length text) = []) := by
  induction text with
  | nil => exact ⟨.line, rfl, Or.inr rfl⟩
  | cons c rest ih =>
    obtain ⟨m, hread, hend⟩ := ih
    have hstep (next : Option Char) : scanner.step .line c next = (blank c, if c = '\n' then .code else .line) := rfl
    rw [line_length]
    split_ifs with hbreak
    · refine ⟨.code, ?_, Or.inl rfl⟩
      rw [List.take_succ_cons, Reader.read_cons, hstep, if_pos hbreak]
      rfl
    · refine ⟨m, ?_, hend⟩
      rw [List.take_succ_cons, Reader.read_cons, hstep, if_neg hbreak, hread]
      rfl

theorem read_block_comment {rest : Text} {opening n : Nat} (hopening : opening = if rest.head? = some '-' ∨ rest.head? = some '!' then 3 else 2)
    (hn : block_length 1 (('/' :: '-' :: rest).drop opening) = some n) (hdoc : ¬"/--/".toList <+: ('/' :: '-' :: rest).take (n + opening))
    (x : Option Char) :
    scanner.read .code (('/' :: '-' :: rest).take (n + opening)) x = ((('/' :: '-' :: rest).take (n + opening)).map blank, .code) := by
  have hopen : scanner.step .code '/' (some '-') = (' ', .second (.block 1)) := rfl
  split_ifs at hopening with hmark
  · subst hopening
    cases rest with
    | nil => simp at hmark
    | cons c rest =>
      simp only [List.head?_cons, Option.some.injEq] at hmark
      obtain ⟨k, rfl⟩ := Nat.exists_eq_add_one.mpr (block_length_pos hn)
      have hbody := read_block hn x
      cases rest with
      | nil => cases hn
      | cons d rest =>
        have hstep : scanner.step (.block 1) c (some d) = (blank c, .block 1) := by
          rw [step_block, if_neg, if_neg]
          · rintro ⟨rfl, hd⟩
            obtain rfl := Option.some.inj hd
            exact hdoc ⟨rest.take k, rfl⟩
          · rintro ⟨rfl, -⟩
            revert hmark
            decide
        show scanner.read .code ('/' :: '-' :: c :: d :: rest.take k) x = (' ' :: ' ' :: blank c :: (d :: rest.take k).map blank, .code)
        rw [Reader.read_cons, Reader.follower_cons, hopen, Reader.read_cons, step_second, Reader.read_cons, Reader.follower_cons, hstep]
        have hbody' : scanner.read (.block 1) (d :: rest.take k) x = ((d :: rest.take k).map blank, .code) := hbody
        rw [hbody']
        rfl
  · subst hopening
    have hbody : scanner.read (.block 1) (rest.take n) x = ((rest.take n).map blank, .code) := read_block hn x
    show scanner.read .code ('/' :: '-' :: rest.take n) x = (' ' :: ' ' :: (rest.take n).map blank, .code)
    rw [Reader.read_cons, Reader.follower_cons, hopen, Reader.read_cons, step_second, hbody]
    rfl

/-- Behind a hidden token the mask is in code again, or the text is over. -/
def Behind (m : Mode) (rest : Text) : Prop := m = .code ∨ rest = []

/-- The mask blanks what Lean hides. -/
theorem read_hidden {symbols : List Text} {behind_name : Bool} {text : Text} {kind : TokenKind} {n : Nat}
    (h : next_token symbols behind_name text = some (kind, n)) (hhidden : kind.hidden = true) (hraw : kind ≠ .raw_string)
    (hdoc : ¬"/--/".toList <+: text.take n) (x : Option Char) :
    ∃ m, scanner.read .code (text.take n) x = ((text.take n).map blank, m) ∧ Behind m (text.drop n) := by
  cases starts_of_next h with
  | line_comment rest =>
    obtain ⟨m, hread, hend⟩ := read_line_comment rest x
    have hopen : scanner.step .code '-' (some '-') = (' ', .second .line) := rfl
    refine ⟨m, ?_, hend⟩
    show scanner.read .code ('-' :: '-' :: rest.take (line_length rest)) x = (' ' :: ' ' :: (rest.take (line_length rest)).map blank, m)
    rw [Reader.read_cons, Reader.follower_cons, hopen, Reader.read_cons, step_second, hread]
    rfl
  | block_comment hopening hk => exact ⟨.code, read_block_comment hopening hk hdoc x, Or.inl rfl⟩
  | string hk =>
    have hopen (next : Option Char) : scanner.step .code '"' next = (' ', .string) := rfl
    refine ⟨.code, ?_, Or.inl rfl⟩
    rw [List.take_succ_cons, Reader.read_cons, hopen, read_string hk]
    rfl
  | quoted hk =>
    have hopen (next : Option Char) : scanner.step .code '«' next = (' ', .quoted) := rfl
    refine ⟨.code, ?_, Or.inl rfl⟩
    rw [List.take_succ_cons, Reader.read_cons, hopen, read_quoted hk]
    rfl
  | raw_string rest n => exact absurd rfl hraw
  | character => cases hhidden
  | part => cases hhidden
  | dot => cases hhidden
  | number => cases hhidden
  | symbol => cases hhidden
  | name => cases hhidden

theorem raw_start {symbols : List Text} {behind_name : Bool} {text : Text} {n : Nat}
    (h : next_token symbols behind_name text = some (.raw_string, n)) : ∃ more, text.take n = 'r' :: more := by
  cases starts_of_next h with
  | raw_string rest k => exact ⟨rest.take k, List.take_succ_cons⟩

/-! ### Texts -/

theorem lex_cons {symbols : List Text} {fuel : Nat} {behind_name : Bool} {text : Text} {tokens : List LeanToken} (hne : text ≠ [])
    (h : lex_from symbols fuel behind_name text = some tokens) : ∃ fuel' behind_name' kind n more, fuel = fuel' + 1 ∧
      next_token symbols behind_name text = some (kind, n) ∧ lex_from symbols fuel' behind_name' (text.drop n) = some more ∧
      tokens = ⟨kind, text.take n⟩ :: more := by
  cases fuel with
  | zero =>
    cases text with
    | nil => exact absurd rfl hne
    | cons c rest => cases h
  | succ fuel =>
    cases text with
    | nil => exact absurd rfl hne
    | cons c rest =>
      obtain ⟨⟨kind, n⟩, hnext, hmore⟩ := Option.bind_eq_some_iff.mp h
      obtain ⟨more, hlex, hsome⟩ := Option.bind_eq_some_iff.mp hmore
      exact ⟨fuel, _, kind, n, more, rfl, hnext, hlex, (Option.some.inj hsome).symm⟩

theorem lex_text {symbols : List Text} {fuel : Nat} {behind_name : Bool} {text : Text} {tokens : List LeanToken}
    (h : lex_from symbols fuel behind_name text = some tokens) : tokens.flatMap (·.text) = text := by
  induction fuel generalizing behind_name text tokens with
  | zero =>
    by_cases hne : text = []
    · subst hne
      obtain rfl := Option.some.inj h
      rfl
    · obtain ⟨_, _, _, _, _, hfuel, _⟩ := lex_cons hne h
      cases hfuel
  | succ fuel ih =>
    by_cases hne : text = []
    · subst hne
      obtain rfl := Option.some.inj h
      rfl
    · obtain ⟨fuel', behind_name', kind, n, more, hfuel, -, hmore, rfl⟩ := lex_cons hne h
      obtain rfl := Nat.succ.inj hfuel
      rw [List.flatMap_cons, ih hmore, List.take_append_drop]

theorem length_code (token : LeanToken) : token.code.length = token.text.length := by
  unfold LeanToken.code
  split
  · exact List.length_map ..
  · rfl

theorem read_lex {symbols : List Text} {fuel : Nat} {behind_name : Bool} {text : Text} {tokens : List LeanToken}
    (h : lex_from symbols fuel behind_name text = some tokens) (hdoc : ∀ token ∈ tokens, ¬"/--/".toList <+: token.text) :
    (scanner.read .code text none).1 = lean_code tokens ↔ well_seen tokens = true := by
  induction fuel generalizing behind_name text tokens with
  | zero =>
    by_cases hne : text = []
    · subst hne
      obtain rfl := Option.some.inj h
      exact iff_of_true rfl rfl
    · obtain ⟨_, _, _, _, _, hfuel, _⟩ := lex_cons hne h
      cases hfuel
  | succ fuel ih =>
    by_cases hne : text = []
    · subst hne
      obtain rfl := Option.some.inj h
      exact iff_of_true rfl rfl
    · obtain ⟨fuel', behind_name', kind, n, more, hfuel, hnext, hmore, rfl⟩ := lex_cons hne h
      obtain rfl := Nat.succ.inj hfuel
      obtain ⟨hdoc, hdocs⟩ := List.forall_mem_cons.mp hdoc
      have hrest := ih hmore hdocs
      have hfollower : Reader.follower (text.drop n) none = (text.drop n).head? := Option.or_none
      have hread : (scanner.read .code text none).1 = (scanner.read .code (text.take n) (text.drop n).head?).1 ++
          (scanner.read (scanner.read .code (text.take n) (text.drop n).head?).2 (text.drop n) none).1 := by
        conv_lhs => rw [← List.take_append_drop n text, Reader.read_append_fst, hfollower]
      have hsplit : (scanner.read .code text none).1 = lean_code (⟨kind, text.take n⟩ :: more) ↔
          (scanner.read .code (text.take n) (text.drop n).head?).1 = LeanToken.code ⟨kind, text.take n⟩ ∧
            (scanner.read (scanner.read .code (text.take n) (text.drop n).head?).2 (text.drop n) none).1 = lean_code more := by
        rw [hread]
        refine ⟨fun heq => List.append_inj heq ?_, fun ⟨hone, htwo⟩ => by rw [hone, htwo]; rfl⟩
        rw [Reader.length_read, length_code]
      rw [hsplit, well_seen, lex_text hmore]
      by_cases hhidden : kind.hidden = true
      · rw [if_pos hhidden, LeanToken.code, if_pos hhidden]
        by_cases hraw : kind = .raw_string
        · subst hraw
          obtain ⟨chars, hchars⟩ := raw_start hnext
          have hopen (next : Option Char) : scanner.step .code 'r' next = ('r', .code) := rfl
          rw [hchars, Reader.read_cons, hopen]
          refine iff_of_false (fun heq => ?_) (by simp)
          exact absurd (List.cons.inj heq.1).1 (by decide)
        · obtain ⟨m, hread, hend⟩ := read_hidden hnext hhidden hraw hdoc (text.drop n).head?
          rw [hread, bne_iff_ne.mpr hraw, Bool.true_and, ← hrest]
          refine (and_iff_right rfl).trans ?_
          rcases hend with rfl | hend
          · rfl
          · rw [hend]
            rfl
      · rw [if_neg hhidden, LeanToken.code, if_neg hhidden, Bool.and_eq_true, ← hrest]
        by_cases hclean : clean (text.take n) (text.drop n).head? = true
        · rw [read_clean hclean]
          exact and_congr (iff_of_true rfl hclean) Iff.rfl
        · exact iff_of_false (fun heq => hclean (clean_of_read heq.1)) fun heq => hclean heq.1

/-- **The mask is Lean's code** just when no character literal, no symbol and no raw string holds
what the mask takes for something else. -/
theorem mask_eq_code {symbols : List Text} {source mask : Text} {tokens : List LeanToken} (hlex : lex symbols source = some tokens)
    (hmask : lean_code_mask source = .ok mask) (hdoc : ∀ token ∈ tokens, ¬"/--/".toList <+: token.text) :
    mask = lean_code tokens ↔ well_seen tokens = true := by
  rw [← read_lex hlex hdoc, (mask_eq_ok.mp hmask).1]

end LeanFlow.Source
