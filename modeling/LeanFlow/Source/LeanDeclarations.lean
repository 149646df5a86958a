import LeanFlow.Source.LeanHoles

/-! The declarations of a text as Lean reads it.

A declaration starts with a keyword that stands outside brackets; its name is the identifier
behind the white space after the keyword. The keywords are found among the tokens of the text,
wherever its lines end. -/
namespace LeanFlow.Source
open General

/-! ### Declarations -/

def declaration_keywords : List Text :=
  ["theorem", "lemma", "example", "def", "abbrev", "opaque", "axiom", "instance", "class", "structure", "inductive",
    "coinductive"].map String.toList

/-- A declaration: where the line of its keyword starts, where the keyword ends, and the text from its name on. -/
structure LeanDeclaration where
  line : Nat
  stop : Nat
  named : Text
deriving DecidableEq

/-- White space or a comment. -/
def LeanToken.white (token : LeanToken) : Bool :=
  token.kind == .line_comment || token.kind == .block_comment || (token.kind == .symbol && token.text.all lean_space)

/-- The first of the tokens that is neither white space nor a comment. -/
def first_word (tokens : List LeanToken) : Option Text := (tokens.dropWhile (·.white)).head?.map (·.text)

/-- How many brackets are open behind a token. -/
def depth_behind (depth : Nat) (token : LeanToken) : Nat :=
  if token.kind = .symbol then
    token.text.foldl (fun depth c => if c ∈ declaration_openers then depth + 1 else if c ∈ declaration_closers then depth - 1 else depth) depth
  else depth

/-- Where the line starts that a text at a position ends in. -/
def line_behind (pos line : Nat) : Text → Nat
  | [] => line
  | c :: rest => line_behind (pos + 1) (if c = '\n' then pos + 1 else line) rest

/-- The keyword of a declaration, with the word before it and the tokens behind. A `class` may be one of another kind,
and `deriving instance` declares nothing. -/
def opens_declaration (before : Option Text) (token : LeanToken) (rest : List LeanToken) : Bool :=
  token.kind == .name && declaration_keywords.contains token.text && !goes_on rest && before != some "deriving".toList &&
    !(token.text == "class".toList && (first_word rest).any ["inductive".toList, "abbrev".toList].contains)

/-- The declarations of the tokens from a position on. -/
def declarations_from (pos line depth : Nat) (before : Option Text) : List LeanToken → List LeanDeclaration
  | [] => []
  | token :: rest =>
    let stop := pos + token.text.length
    let line' := line_behind pos line token.text
    if token.white then declarations_from stop line' depth before rest
    else
      (if depth = 0 ∧ opens_declaration before token rest then [⟨line, stop, (rest.dropWhile (·.white)).flatMap (·.text)⟩] else []) ++
        declarations_from stop line' (depth_behind depth token) (some token.text) rest

def lean_declarations (tokens : List LeanToken) : List LeanDeclaration := declarations_from 0 0 0 none tokens

example : (lex [] "@[class] theorem\n/- b -/ b.c : 1 = 1".toList).map lean_declarations =
    some [⟨0, 16, "b.c : 1 = 1".toList⟩] := by decide +kernel

/-- The declaration that a position is in: the last one whose line starts there or before. -/
structure Declares (tokens : List LeanToken) (position : Nat) (d : LeanDeclaration) : Prop where
  listed : d ∈ lean_declarations tokens
  starts : d.line ≤ position
  last : ∀ other ∈ lean_declarations tokens, other.line ≤ position → other.stop ≤ d.stop

/-! ### The text of a name -/

section Named

variable {C : CharClass} {symbols : List Text}

theorem declarations_split {pos line depth : Nat} {before : Option Text} {tokens : List LeanToken} {d : LeanDeclaration}
    (h : d ∈ declarations_from pos line depth before tokens) : ∃ front rest, tokens = front ++ rest ∧
      d.stop = pos + (front.flatMap (·.text)).length ∧ d.named = (rest.dropWhile (·.white)).flatMap (·.text) := by
  induction tokens generalizing pos line depth before with
  | nil => cases h
  | cons token tokens ih =>
    have hlater {line depth : Nat} {before : Option Text} (h : d ∈ declarations_from (pos + token.text.length) line depth before tokens) :
        ∃ front rest, token :: tokens = front ++ rest ∧ d.stop = pos + (front.flatMap (·.text)).length ∧
          d.named = (rest.dropWhile (·.white)).flatMap (·.text) := by
      obtain ⟨front, rest, hsplit, hstop, hnamed⟩ := ih h
      refine ⟨token :: front, rest, by rw [hsplit, List.cons_append], ?_, hnamed⟩
      rw [hstop, List.flatMap_cons, List.length_append, Nat.add_assoc]
    rw [declarations_from] at h
    split at h
    · exact hlater h
    · rcases List.mem_append.mp h with h | h
      · split at h
        · obtain rfl := List.mem_singleton.mp h
          exact ⟨[token], tokens, rfl, by simp, rfl⟩
        · cases h
      · exact hlater h

theorem lex_suffix {fuel : Nat} {behind_name : Bool} {text : Text} {front rest : List LeanToken}
    (h : lex_from symbols fuel behind_name text = some (front ++ rest)) :
    ∃ fuel' behind_name', lex_from symbols fuel' behind_name' (rest.flatMap (·.text)) = some rest := by
  induction front generalizing fuel behind_name text with
  | nil =>
    have htext : rest.flatMap (·.text) = text := lex_text h
    exact ⟨fuel, behind_name, by rw [htext]; exact h⟩
  | cons token front ih =>
    by_cases hne : text = []
    · subst hne
      cases fuel <;> cases h
    · obtain ⟨fuel', behind_name', kind, n, more, -, -, hmore, hcons⟩ := lex_cons hne h
      obtain ⟨-, rfl⟩ := List.cons.inj hcons
      exact ih hmore

theorem seen_suffix {front rest : List LeanToken} (h : well_seen (front ++ rest) = true) : well_seen rest = true := by
  induction front with
  | nil => exact h
  | cons token front ih => exact ih (Bool.and_eq_true_iff.mp h).2

/-- White tokens are blank in the code. -/
theorem white_code {token : LeanToken} (h : token.white = true) : ∀ c ∈ token.code, C.space c = true := by
  have hblank : ∀ c ∈ token.text.map blank, C.space c = true := by
    intro c hc
    obtain ⟨d, -, rfl⟩ := List.mem_map.mp hc
    refine space_of_not_visible C fun hvisible => ?_
    unfold blank at hvisible
    split at hvisible
    · exact hvisible.2 ‹_›
    · exact hvisible.1 rfl
  obtain ⟨kind, text⟩ := token
  unfold LeanToken.white at h
  unfold LeanToken.code
  split
  · exact hblank
  · rename_i hshown
    simp only [Bool.or_eq_true, Bool.and_eq_true, beq_iff_eq] at h
    rcases h with (rfl | rfl) | ⟨rfl, hspace⟩
    · exact absurd rfl hshown
    · exact absurd rfl hshown
    · exact fun c hc => space_of_lean (List.all_eq_true.mp hspace c hc)

/-- The text of a name follows the white space behind the keyword. -/
theorem named_follows {text : Text} {tokens : List LeanToken} (hlex : lex symbols text = some tokens) (hseen : well_seen tokens = true)
    (hdoc : ∀ token ∈ tokens, ¬"/--/".toList <+: token.text) {d : LeanDeclaration} (hd : d ∈ lean_declarations tokens) :
    FollowsWhite C (text.drop d.stop) d.named := by
  obtain ⟨front, rest, rfl, hstop, hnamed⟩ := declarations_split hd
  have hread {front rest : List LeanToken} (hlex : lex symbols text = some (front ++ rest)) (hseen : well_seen (front ++ rest) = true)
      (hdoc : ∀ token ∈ front ++ rest, ¬"/--/".toList <+: token.text) :
      (scanner.read .code (rest.flatMap (·.text)) none).1 = lean_code rest := by
    obtain ⟨fuel, behind_name, hrest⟩ := lex_suffix hlex
    exact (read_lex hrest fun token htoken => hdoc token (List.mem_append_right _ htoken)).mpr (seen_suffix hseen)
  have htext : text.drop d.stop = rest.flatMap (·.text) := by
    rw [hstop, ← lex_text hlex, List.flatMap_append, Nat.zero_add, List.drop_left]
  have hsplit : rest.takeWhile (·.white) ++ rest.dropWhile (·.white) = rest := List.takeWhile_append_dropWhile
  have hlength : (lean_code (rest.takeWhile (·.white))).length = ((rest.takeWhile (·.white)).flatMap (·.text)).length := by
    simp only [lean_code, List.length_flatMap, length_code]
  have hcode : lean_code rest = lean_code (rest.takeWhile (·.white)) ++ lean_code (rest.dropWhile (·.white)) := by
    rw [lean_code, lean_code, lean_code, ← List.flatMap_append, hsplit]
  have hbehind : (scanner.read .code d.named none).1 = lean_code (rest.dropWhile (·.white)) := by
    rw [hnamed]
    refine @hread (front ++ rest.takeWhile (·.white)) _ ?_ ?_ ?_
    · rwa [List.append_assoc, hsplit]
    · rwa [List.append_assoc, hsplit]
    · rwa [List.append_assoc, hsplit]
  refine ⟨((rest.takeWhile (·.white)).flatMap (·.text)).length, ?_, ?_, ?_⟩
  · rw [htext, hnamed]
    conv_rhs => rw [← hsplit, List.flatMap_append]
    rw [List.takeWhile_append_dropWhile, List.drop_left]
  · rw [htext, hread hlex hseen hdoc, hbehind, hcode, ← hlength, List.drop_left]
  · rw [htext, hread hlex hseen hdoc, hcode, ← hlength, List.take_left]
    intro c hc
    obtain ⟨token, htoken, hc⟩ := List.mem_flatMap.mp hc
    exact white_code (List.mem_takeWhile_imp htoken) c hc

end Named

end LeanFlow.Source
