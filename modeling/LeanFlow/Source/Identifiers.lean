import LeanFlow.Source.Lexing
import LeanFlow.Source.Lines

/-! The names of declarations.

`identifier` reads a whole identifier of Lean. The index reads names with a regular
expression over ASCII, on a line of the mask; where the identifier after the keyword is
plain, the two are the same (`declared_name`). -/
namespace LeanFlow.Source
open General

/-! ### Identifiers -/

/-- Letters beyond ASCII: Greek but for `λ`, `Π` and `Σ`, letter-like symbols, script and Latin ones. -/
def isLetterLike (c : Char) : Bool :=
  (0x3b1 ≤ c.val && c.val ≤ 0x3c9 && c.val != 0x3bb) ||
  (0x391 ≤ c.val && c.val ≤ 0x3a9 && c.val != 0x3a0 && c.val != 0x3a3) ||
  (0x3ca ≤ c.val && c.val ≤ 0x3fb) || (0x1f00 ≤ c.val && c.val ≤ 0x1ffe) || (0x2100 ≤ c.val && c.val ≤ 0x214f) ||
  (0x1d49c ≤ c.val && c.val ≤ 0x1d59f) || (0xc0 ≤ c.val && c.val ≤ 0xff && c.val != 0xd7 && c.val != 0xf7) ||
  (0x100 ≤ c.val && c.val ≤ 0x17f)

def isSubscript (c : Char) : Bool :=
  (0x2080 ≤ c.val && c.val ≤ 0x2089) || (0x2090 ≤ c.val && c.val ≤ 0x209c) || (0x1d62 ≤ c.val && c.val ≤ 0x1d6a) ||
  c.val == 0x2c7c

/-- A character that an identifier goes on with. -/
def isIdentifierChar (c : Char) : Bool :=
  c.isAlphanum || c == '_' || c == '\'' || c == '!' || c == '?' || isLetterLike c || isSubscript c

/-- One part of an identifier, which may be quoted. -/
def identifier_part : Text → Text
  | '«' :: rest => if '»' ∈ rest then '«' :: rest.takeWhile (· ≠ '»') ++ ['»'] else []
  | text => text.takeWhile isIdentifierChar

/-- The further parts, each with the dot before it. -/
def identifier_parts : Nat → Text → Text
  | fuel + 1, '.' :: rest =>
    let part := identifier_part rest
    if part = [] then [] else '.' :: part ++ identifier_parts fuel (rest.drop part.length)
  | _, _ => []

/-- The identifier at the start of a text; digits may be its first characters. -/
def identifier (text : Text) : Text :=
  let part := identifier_part text
  if part = [] then [] else part ++ identifier_parts text.length (text.drop part.length)

example : identifier "a_1.«x y».β' : Nat".toList = "a_1.«x y».β'".toList := by decide +kernel

/-- `rest` is what follows white space and comments in a text, as the mask has them. -/
def FollowsWhite (C : CharClass) (text rest : Text) : Prop :=
  ∃ n, rest = text.drop n ∧ (scanner.read .code text none).1.drop n = (scanner.read .code rest none).1 ∧
    ∀ c ∈ (scanner.read .code text none).1.take n, C.space c = true

/-- What follows the keyword of the declaration that a line starts. -/
def keyword_rest (C : CharClass) (line : Text) : Text :=
  (((Pattern.declaration_preamble C).matchStart line).bind (·.after 1)).getD []

/-- The characters of the names that the index can read, but for the hyphen. -/
def isPlainChar (c : Char) : Bool := c.isAlphanum || c == '_' || c == '\'' || c == '.'

/-- The identifier is one that the index can read: ASCII letters, digits, `_`, `'` and dots,
and no hyphen follows that is not that of a comment. -/
structure PlainName (text : Text) : Prop where
  named : identifier text ≠ []
  ascii : (identifier text).all isPlainChar = true
  hyphen : ¬['-'] <+: (scanner.read .code (text.drop (identifier text).length) none).1
  dotted : ¬['.', '-'] <+: (scanner.read .code (text.drop (identifier text).length) none).1

instance (text : Text) : Decidable (PlainName text) :=
  decidable_of_iff (identifier text ≠ [] ∧ (identifier text).all isPlainChar = true ∧
      ¬['-'] <+: (scanner.read .code (text.drop (identifier text).length) none).1 ∧
      ¬['.', '-'] <+: (scanner.read .code (text.drop (identifier text).length) none).1)
    ⟨fun ⟨hnamed, hascii, hhyphen, hdotted⟩ => ⟨hnamed, hascii, hhyphen, hdotted⟩,
      fun ⟨hnamed, hascii, hhyphen, hdotted⟩ => ⟨hnamed, hascii, hhyphen, hdotted⟩⟩

/-- A name in parts, a word and words with dots before them, and what is behind it; `p` holds of
the characters of a word, and `q` of none that could go on. -/
def Parted (p q : Char → Bool) (text name rest : Text) : Prop :=
  ∃ (first : Text) (parts : List Text), name = first ++ parts.flatMap ('.' :: ·) ∧ text = name ++ rest ∧ first ≠ [] ∧
    (∀ c ∈ first, p c = true) ∧ (∀ part ∈ parts, part ≠ [] ∧ ∀ c ∈ part, p c = true) ∧
    rest.head?.all (fun c => !q c) = true ∧ ∀ c, ['.', c] <+: rest → q c = false

/-! ### What an identifier is made of -/

/-- A plain part is a run of characters of the index. -/
theorem part_spec {text : Text} (hplain : ∀ c ∈ identifier_part text, c ≠ '«') :
    identifier_part text = text.takeWhile isIdentifierChar := by
  unfold identifier_part at hplain ⊢
  split
  · rename_i rest
    split_ifs at hplain ⊢ with hclosed
    · exact absurd rfl (hplain '«' (by simp [hclosed]))
    · rfl
  · rfl

theorem stop_of_part {text : Text} (h : identifier_part text = []) {c : Char} (hc : [c] <+: text) :
    isIdentifierChar c = false := by
  obtain ⟨rest, rfl⟩ := hc
  have hnone : ∀ d ∈ identifier_part ([c] ++ rest), d ≠ '«' := by
    rw [h]
    exact nofun
  have hpart := part_spec hnone
  rw [h] at hpart
  by_contra hgo
  rw [Bool.not_eq_false] at hgo
  simp [hgo] at hpart

theorem head_dropWhile (p : Char → Bool) (text : Text) : (text.dropWhile p).head?.all (fun c => !p c) = true := by
  have hstop := List.head?_dropWhile_not p text
  cases hhead : (text.dropWhile p).head? with
  | none => rfl
  | some c =>
    rw [hhead] at hstop
    simpa using hstop

theorem parts_spec {fuel : Nat} {text : Text} (hfuel : text.length ≤ fuel)
    (hplain : ∀ c ∈ identifier_parts fuel text, c ≠ '«') (htext : text.head?.all (fun c => !isIdentifierChar c) = true) :
    ∃ (parts : List Text) (rest : Text), identifier_parts fuel text = parts.flatMap ('.' :: ·) ∧
      text = parts.flatMap ('.' :: ·) ++ rest ∧
      (∀ part ∈ parts, part ≠ [] ∧ ∀ c ∈ part, isIdentifierChar c = true) ∧
      rest.head?.all (fun c => !isIdentifierChar c) = true ∧ ∀ c, ['.', c] <+: rest → isIdentifierChar c = false := by
  fun_induction identifier_parts fuel text with
  | case1 fuel rest part hpart =>
    exact ⟨[], '.' :: rest, rfl, rfl, nofun, htext, fun c hc => stop_of_part hpart (List.cons_prefix_cons.mp hc).2⟩
  | case2 fuel rest part hpart ih =>
    rw [List.cons_append, List.forall_mem_cons, List.forall_mem_append] at hplain
    have htake : part = rest.takeWhile isIdentifierChar := part_spec hplain.2.1
    have hsplit : rest = part ++ rest.dropWhile isIdentifierChar := by
      rw [htake, List.takeWhile_append_dropWhile]
    have hdrop : rest.drop part.length = rest.dropWhile isIdentifierChar := by
      nth_rewrite 1 [hsplit]
      exact List.drop_left
    have hlength := congrArg List.length hsplit
    rw [List.length_append] at hlength
    rw [List.length_cons] at hfuel
    obtain ⟨parts, tail, hparts, htail, hwords, hhead, hdot⟩ := ih (by rw [hdrop]; omega) hplain.2.2
      (by rw [hdrop]; exact head_dropWhile _ _)
    rw [hdrop] at htail
    refine ⟨part :: parts, tail, ?_, ?_, ?_, hhead, hdot⟩
    · rw [hparts]
      rfl
    · nth_rewrite 1 [hsplit]
      rw [htail]
      simp
    · refine List.forall_mem_cons.mpr ⟨⟨hpart, fun c hc => ?_⟩, hwords⟩
      rw [htake] at hc
      exact List.mem_takeWhile_imp hc
  | case3 fuel text hother =>
    refine ⟨[], text, rfl, rfl, nofun, htext, fun c hc => ?_⟩
    obtain ⟨rest, rfl⟩ := hc
    cases fuel with
    | zero => simp at hfuel
    | succ fuel => exact absurd rfl (hother fuel (c :: rest) rfl)

theorem plain_cases {c : Char} (h : isPlainChar c = true) : c.isAlphanum = true ∨ c = '_' ∨ c = '\'' ∨ c = '.' := by
  simpa [isPlainChar, or_assoc] using h

/-- A plain identifier is in parts that the index reads too. -/
theorem PlainName.parted {text : Text} (h : PlainName text) :
    Parted Pattern.isNameChar isIdentifierChar text (identifier text) (text.drop (identifier text).length) := by
  have hascii {c : Char} (hc : c ∈ identifier text) := plain_cases (List.all_eq_true.mp h.ascii c hc)
  obtain ⟨hnamed, -, -, -⟩ := h
  have hname {c : Char} (hc : c ∈ identifier text) (hgo : isIdentifierChar c = true) : Pattern.isNameChar c = true := by
    rcases hascii hc with hletter | rfl | rfl | rfl
    · simp [Pattern.isNameChar, hletter]
    · rfl
    · rfl
    · exact absurd hgo (by decide)
  have hunquoted : ∀ c ∈ identifier text, c ≠ '«' := by
    intro c hc hquote
    subst hquote
    exact absurd (hascii hc) (by decide)
  unfold identifier at hnamed hname hunquoted ⊢
  dsimp only at hnamed hname hunquoted ⊢
  split_ifs at hnamed hname hunquoted ⊢ with hpart
  · exact absurd rfl hnamed
  · set part := identifier_part text with hpart_eq
    rw [List.forall_mem_append] at hunquoted
    have htake : part = text.takeWhile isIdentifierChar := part_spec hunquoted.1
    have hsplit : text = part ++ text.dropWhile isIdentifierChar := by
      rw [htake, List.takeWhile_append_dropWhile]
    have hdrop : text.drop part.length = text.dropWhile isIdentifierChar := by
      nth_rewrite 1 [hsplit]
      exact List.drop_left
    have hlength := congrArg List.length hsplit
    rw [List.length_append] at hlength
    obtain ⟨parts, tail, hparts, htail, hwords, hhead, hdot⟩ := parts_spec (by rw [hdrop]; omega) hunquoted.2
      (by rw [hdrop]; exact head_dropWhile _ _)
    have hwhole : text = part ++ parts.flatMap ('.' :: ·) ++ tail := by
      rw [List.append_assoc, ← htail, hdrop]
      exact hsplit
    have hrest : text.drop (part ++ identifier_parts text.length (text.drop part.length)).length = tail := by
      rw [hparts]
      nth_rewrite 1 [hwhole]
      exact List.drop_left
    refine ⟨part, parts, by rw [hparts], ?_, hpart, fun c hc => ?_, fun word hword => ?_, ?_, ?_⟩
    · rw [hrest, hparts]
      exact hwhole
    · refine hname (List.mem_append_left _ hc) ?_
      rw [htake] at hc
      exact List.mem_takeWhile_imp hc
    · obtain ⟨hne, hchars⟩ := hwords word hword
      refine ⟨hne, fun c hc => hname (List.mem_append_right _ ?_) (hchars c hc)⟩
      rw [hparts]
      exact List.mem_flatMap.mpr ⟨word, hword, List.mem_cons_of_mem _ hc⟩
    · rw [hrest]
      exact hhead
    · rw [hrest]
      exact hdot

/-- The parts of a prefix, one behind the other. -/
theorem append_starts {front back text : Text} (hfront : front <+: text) (hback : back <+: text.drop front.length) : front ++ back <+: text := by
  obtain ⟨rest, rfl⟩ := hfront
  rw [List.drop_left] at hback
  exact (List.prefix_append_right_inj front).mpr hback

theorem part_starts (text : Text) : identifier_part text <+: text := by
  unfold identifier_part
  split
  · rename_i rest
    split
    · rename_i hclosed
      have hsplit := List.takeWhile_append_dropWhile (p := (· ≠ '»')) (l := rest)
      have hne : rest.dropWhile (· ≠ '»') ≠ [] := by
        intro hnil
        rw [hnil, List.append_nil] at hsplit
        rw [← hsplit] at hclosed
        simpa using List.mem_takeWhile_imp hclosed
      obtain ⟨c, more, hmore⟩ := List.exists_cons_of_ne_nil hne
      have hc : c = '»' := by
        have hhead := List.head?_dropWhile_not (· ≠ '»') rest
        rw [hmore] at hhead
        simpa using hhead
      refine ⟨more, ?_⟩
      rw [hmore, hc] at hsplit
      rw [List.cons_append, List.cons_append, List.append_assoc, List.singleton_append, hsplit]
    · exact List.nil_prefix
  · exact List.takeWhile_prefix _

theorem parts_start (fuel : Nat) (text : Text) : identifier_parts fuel text <+: text := by
  induction fuel generalizing text with
  | zero => exact List.nil_prefix
  | succ fuel ih =>
    unfold identifier_parts
    split
    · rename_i fuel' rest hfuel
      obtain rfl := Nat.succ.inj hfuel
      dsimp only
      split
      · exact List.nil_prefix
      · exact List.cons_prefix_cons.mpr ⟨rfl, append_starts (part_starts rest) (ih _)⟩
    · exact List.nil_prefix

/-- An identifier is the start of what it is read from. -/
theorem identifier_starts (text : Text) : identifier text <+: text := by
  unfold identifier
  dsimp only
  split
  · exact List.nil_prefix
  · exact append_starts (part_starts text) (parts_start _ _)

/-! ### The scan -/

theorem space_of_not_visible (C : CharClass) {c : Char} (h : ¬Visible c) : C.space c = true := by
  by_cases hspace : c = ' '
  · rw [hspace, C.space_ascii _ (by decide)]
    rfl
  · have hline : c = '\n' := by
      by_contra hne
      exact h ⟨hspace, hne⟩
    rw [hline, C.space_ascii _ (by decide)]
    rfl

/-- Characters that open nothing are read as they are. -/
theorem read_chars {name : Text} (h : ∀ c ∈ name, c ≠ '-' ∧ c ≠ '/' ∧ c ≠ '"' ∧ c ≠ '«') (rest : Text) :
    (scanner.read .code (name ++ rest) none).1 = name ++ (scanner.read .code rest none).1 := by
  induction name with
  | nil => rfl
  | cons c name ih =>
    obtain ⟨⟨hdash, hslash, hquote, hguillemet⟩, hname⟩ := List.forall_mem_cons.mp h
    have hstep (next : Option Char) : scanner.step .code c next = (c, .code) := by
      simp [scanner, scanChar, hdash, hslash, hquote, hguillemet]
    rw [List.cons_append, Reader.read_cons, hstep, List.cons_append, ih hname]

/-- The first character of a mask, if it is visible, is that of the text. -/
theorem head_of_visible {text mask : Text} {c : Char} (h : (scanner.read .code text none).1 = c :: mask) (hc : Visible c) :
    ∃ rest, text = c :: rest ∧ (scanner.read .code rest none).1 = mask := by
  cases text with
  | nil => cases h
  | cons d rest =>
    rw [Reader.read_cons] at h
    obtain ⟨hd, hrest⟩ := List.cons.inj h
    have hvisible : Visible (scanChar .code d (Reader.follower rest none)).1 := by
      have hd' : (scanChar .code d (Reader.follower rest none)).1 = c := hd
      rw [hd']
      exact hc
    obtain ⟨-, hstep⟩ := visible_step hvisible
    have hs : scanner.step .code d (Reader.follower rest none) = (d, .code) := hstep
    rw [hs] at hd hrest
    exact ⟨rest, by rw [← hd], hrest⟩

/-- Behind a visible character the scan is in code. -/
theorem mode_of_visible {m : Mode} {a mask : Text} {c : Char} {x : Option Char} (h : (scanner.read m a x).1 = mask ++ [c])
    (hc : Visible c) : (scanner.read m a x).2 = .code := by
  cases a using List.reverseRecOn with
  | nil => simp at h
  | append_singleton l d =>
    rw [Reader.read_append] at h ⊢
    have hone (m : Mode) : scanner.read m [d] x = ([(scanChar m d x).1], (scanChar m d x).2) := by
      simp [Reader.read_cons, scanner]
    rw [hone] at h ⊢
    have hd := List.append_inj_right' h rfl
    have hvisible : Visible (scanChar (scanner.read m l (Reader.follower [d] x)).2 d x).1 := by
      rw [List.singleton_inj.mp hd]
      exact hc
    obtain ⟨-, hstep⟩ := visible_step hvisible
    dsimp only
    rw [hstep]

/-- A mask goes on behind a visible character as if the text started there. -/
theorem read_behind {text front rest : Text} {c : Char} (h : (scanner.read .code text none).1 = front ++ [c] ++ rest)
    (hc : Visible c) : (scanner.read .code (text.drop (front ++ [c]).length) none).1 = rest := by
  have hlength : (front ++ [c]).length ≤ text.length := by
    have hread := congrArg List.length h
    rw [Reader.length_read, List.length_append] at hread
    omega
  rw [← List.take_append_drop (front ++ [c]).length text, Reader.read_append_fst] at h
  have htake : (scanner.read .code (text.take (front ++ [c]).length)
      (Reader.follower (text.drop (front ++ [c]).length) none)).1.length = (front ++ [c]).length := by
    rw [Reader.length_read, List.length_take, Nat.min_eq_left hlength]
  obtain ⟨hfront, hrest⟩ := List.append_inj h htake
  rw [mode_of_visible hfront hc] at hrest
  exact hrest

/-! ### The regular expression -/

theorem run_dotted {p : Char → Bool} (hdot : p '.' = false) {parts : List Text} {rest : Text}
    (hparts : ∀ part ∈ parts, part ≠ [] ∧ ∀ c ∈ part, p c = true) (hhead : rest.head?.all (fun c => !p c) = true)
    (hstop : ∀ c, ['.', c] <+: rest → p c = false) {k : Regex.At Char → Option (Regex.At Char)}
    {groups : List (Nat × Text × Text)} (hk : ∀ before, (k ⟨before, rest, groups⟩).isSome = true) (before : Option Char) :
    ∃ before', Regex.run (.star (.seq (Pattern.text ".") (.plus (.one p)))) ⟨before, parts.flatMap ('.' :: ·) ++ rest, groups⟩ k =
      k ⟨before', rest, groups⟩ := by
  induction parts generalizing before with
  | nil =>
    refine ⟨before, ?_⟩
    rw [List.flatMap_nil, List.nil_append, Regex.run_star]
    have hnone (g : Regex.At Char → Option (Regex.At Char)) :
        Regex.run (.seq (Pattern.text ".") (.plus (.one p))) ⟨before, rest, groups⟩ g = none := by
      refine Option.eq_none_iff_forall_ne_some.mpr fun b hb => ?_
      obtain ⟨c, hspans, -⟩ := Regex.run_sound _ _ _ _ hb
      cases hspans with
      | seq hword hplus =>
        have hrest := hword.of_word
        cases hplus with
        | seq hone _ =>
          cases hone with
          | one before' rest' groups' hc =>
            have hp := hstop _ ⟨rest', hrest.symm⟩
            rw [hc] at hp
            cases hp
    rw [hnone, Option.none_or]
  | cons part parts ih =>
    obtain ⟨⟨hne, hpart⟩, hparts⟩ := List.forall_mem_cons.mp hparts
    have hhead' : (parts.flatMap ('.' :: ·) ++ rest).head?.all (fun c => !p c) = true := by
      cases parts with
      | nil => exact hhead
      | cons next parts => simp [hdot]
    have hback (b : Option Char) : ∃ before', Regex.run (.star (.seq (Pattern.text ".") (.plus (.one p))))
        ⟨b, parts.flatMap ('.' :: ·) ++ rest, groups⟩ k = k ⟨before', rest, groups⟩ := ih hparts b
    set others := parts.flatMap ('.' :: ·) ++ rest with hothers
    have hwhole : (part :: parts).flatMap ('.' :: ·) ++ rest = '.' :: (part ++ others) := by
      simp [hothers]
    set g : Regex.At Char → Option (Regex.At Char) := fun b =>
      if b.rest.length < ('.' :: (part ++ others)).length then
        Regex.run (.star (.seq (Pattern.text ".") (.plus (.one p)))) b k
      else none with hg
    have hturn (b : Option Char) : ∃ before', g ⟨b, others, groups⟩ = k ⟨before', rest, groups⟩ := by
      obtain ⟨before', hrun⟩ := hback b
      refine ⟨before', ?_⟩
      rw [← hrun, hg]
      exact if_pos (Nat.lt_succ_of_le (List.suffix_append part others).length_le)
    have hsome (b : Option Char) : (g ⟨b, others, groups⟩).isSome = true := by
      obtain ⟨before', hrun⟩ := hturn b
      rw [hrun]
      exact hk before'
    obtain ⟨b, hplus⟩ := Regex.run_plus_one (a := ⟨some '.', part ++ others, groups⟩) rfl hne hpart hhead' hsome
    obtain ⟨before', hrun⟩ := hturn b
    have hdotted : Regex.run (.seq (Pattern.text ".") (.plus (.one p))) ⟨before, '.' :: (part ++ others), groups⟩ g =
        Regex.run (.plus (.one p)) ⟨some '.', part ++ others, groups⟩ g := rfl
    refine ⟨before', ?_⟩
    rw [hwhole, Regex.run_star, hdotted, hplus, hrun]
    obtain ⟨c, hc⟩ := Option.isSome_iff_exists.mp (hk before')
    rw [hc, Option.some_or]

/-- The name that the index reads where a name is. -/
theorem run_name {text name rest : Text} (h : Parted Pattern.isNameChar Pattern.isNameChar text name rest)
    {k : Regex.At Char → Option (Regex.At Char)} {groups : List (Nat × Text × Text)}
    (hk : ∀ before, (k ⟨before, rest, groups⟩).isSome = true) (before : Option Char) :
    ∃ before', Regex.run Pattern.declaration_name ⟨before, text, groups⟩ k = k ⟨before', rest, groups⟩ := by
  obtain ⟨first, parts, rfl, rfl, hne, hfirst, hparts, hhead, hstop⟩ := h
  have hdot : Pattern.isNameChar '.' = false := rfl
  set star := Regex.run (.star (.seq (Pattern.text ".") (.plus (.one Pattern.isNameChar)))) with hstar
  have hback (b : Option Char) : ∃ before', star ⟨b, parts.flatMap ('.' :: ·) ++ rest, groups⟩ k = k ⟨before', rest, groups⟩ :=
    run_dotted hdot hparts hhead hstop hk b
  have hhead' : (parts.flatMap ('.' :: ·) ++ rest).head?.all (fun c => !Pattern.isNameChar c) = true := by
    cases parts with
    | nil => exact hhead
    | cons next parts => simp [hdot]
  obtain ⟨b, hplus⟩ := Regex.run_plus_one (p := Pattern.isNameChar) (k := fun b => star b k)
    (a := ⟨before, first ++ (parts.flatMap ('.' :: ·) ++ rest), groups⟩) rfl hne hfirst hhead' fun b => by
      obtain ⟨before', hrun⟩ := hback b
      rw [hrun]
      exact hk before'
  obtain ⟨before', hrun⟩ := hback b
  refine ⟨before', ?_⟩
  rw [List.append_assoc, ← hrun, ← hplus]
  rfl

section Keyword

variable {C : CharClass}

/-- A line that starts a declaration has a keyword and white space, and then the name is looked for. -/
theorem preamble_match {line : Text} {found : Regex.At Char}
    (h : (Pattern.declaration_preamble C).matchStart line = some found) :
    ∃ (front kind rest : Text) (s : Char) (before : Option Char) (word : Text), line = front ++ kind ++ s :: rest ∧
      kind ≠ [] ∧ (∀ c ∈ kind, Visible c) ∧ C.space s = true ∧
      Regex.run (.seq (.opt (.group 2 Pattern.declaration_name)) .empty)
        ⟨before, rest.dropWhile C.space, [(1, word, s :: rest)]⟩ some = some found := by
  unfold Regex.matchStart Pattern.declaration_preamble at h
  obtain ⟨a₁, hstart, h⟩ := Regex.run_all_cons h
  obtain ⟨a₂, hspaces, h⟩ := Regex.run_all_cons h
  obtain ⟨a₃, hscopes, h⟩ := Regex.run_all_cons h
  obtain ⟨a₄, hmodifiers, h⟩ := Regex.run_all_cons h
  obtain ⟨a₅, hgroup, h⟩ := Regex.run_all_cons h
  have hgroups : a₄.groups = [] := by
    rw [hmodifiers.groups rfl, hscopes.groups rfl, hspaces.groups rfl, hstart.groups rfl]
  have hfront : a₄.rest <:+ line := hmodifiers.suffix.trans (hscopes.suffix.trans (hspaces.suffix.trans hstart.suffix))
  obtain ⟨front, hfront⟩ := hfront
  cases hgroup with
  | @group _ _ _ b hkind =>
    obtain ⟨kind, hmem, hword⟩ := hkind.of_any
    have hletters : ("theorem" :: ["lemma", "example", "def", "abbrev", "opaque", "axiom", "instance", "class", "structure",
        "inductive"]).all (fun keyword => keyword.toList != [] && keyword.toList.all fun c => c != ' ' && c != '\n') = true := rfl
    obtain ⟨keyword, hkeyword, rfl⟩ : ∃ keyword ∈ "theorem" :: ["lemma", "example", "def", "abbrev", "opaque", "axiom",
        "instance", "class", "structure", "inductive"], Pattern.text keyword = kind := List.mem_map.mp hmem
    obtain ⟨hne, hvisible⟩ := Bool.and_eq_true_iff.mp (List.all_eq_true.mp hletters keyword hkeyword)
    have hrest := hword.of_word
    have hunchanged : b.groups = [] := (hword.groups (Regex.groupless_word _)).trans hgroups
    obtain ⟨before, rest, groups⟩ := b
    dsimp only at h hrest hunchanged
    subst hunchanged
    cases rest with
    | nil => cases h
    | cons s rest =>
      by_cases hs : C.space s = true
      · refine ⟨front, keyword.toList, rest, s, Regex.lastOf (some s) (rest.takeWhile C.space),
          a₄.upTo ⟨before, s :: rest, []⟩, ?_,
          by simpa using hne, fun c hc => by simpa [Visible] using List.all_eq_true.mp hvisible c hc, hs, ?_⟩
        · rw [List.append_assoc, ← hrest]
          exact hfront.symm
        · have hrun := Regex.run_star_one (p := C.space)
            (k := fun c => Regex.run (.seq (.opt (.group 2 Pattern.declaration_name)) .empty) c some)
            (a := ⟨some s, rest, [(1, a₄.upTo ⟨before, s :: rest, []⟩, s :: rest)]⟩)
            (Regex.run_opt (.group 2 Pattern.declaration_name) (k := fun c => Regex.run .empty c some) rfl)
          rw [← hrun, ← h]
          simp [Regex.all, Regex.plus, Regex.run, Pattern.space, hs]
      · simp [Regex.all, Regex.plus, Regex.run, Pattern.space, hs] at h

/-- Whether a name was found or not, what follows the keyword is known. -/
theorem after_keyword {u word rest : Text} {before : Option Char} {found : Regex.At Char}
    (h : Regex.run (.seq (.opt (.group 2 Pattern.declaration_name)) .empty) ⟨before, u, [(1, word, rest)]⟩ some = some found) :
    found.after 1 = some rest ∧ (u = [] → found.group 2 = none) := by
  change Regex.run (Regex.all [.opt (.group 2 Pattern.declaration_name)]) _ _ = _ at h
  obtain ⟨b, hspans, hb⟩ := Regex.run_all_cons h
  obtain rfl := Option.some.inj hb
  cases hspans with
  | left hgroup =>
    cases hgroup with
    | group hname =>
      have hsuffix := hname.suffix
      refine ⟨?_, fun hu => ?_⟩
      · simp [Regex.At.after, hname.groups rfl]
      · subst hu
        cases hname with
        | seq hplus _ =>
          cases hplus with
          | seq hone _ => cases hone
  | right hempty =>
    cases hempty with
    | empty => exact ⟨rfl, fun _ => rfl⟩

theorem strip_eq {name : Text} (h : ∀ c ∈ name, C.space c = false) : strip C name = name := by
  have hdrop (text : Text) (htext : ∀ c ∈ text, C.space c = false) : text.dropWhile C.space = text := by
    cases text with
    | nil => rfl
    | cons c text => exact List.dropWhile_cons_of_neg (by simp [htext c (List.mem_cons_self ..)])
  rw [strip, lstrip, hdrop name h, rstrip, hdrop _ fun c hc => h c (List.mem_reverse.mp hc), List.reverse_reverse]

/-- What the text of a plain name may have in it. -/
theorem name_char {c : Char} (h : c.isAlphanum = true ∨ c = '_' ∨ c = '\'' ∨ c = '.') :
    39 ≤ c.val.toNat ∧ c.val.toNat ≤ 122 ∧ c.val.toNat ≠ 45 ∧ c.val.toNat ≠ 47 := by
  rcases h with h | rfl | rfl | rfl
  · have h : ((decide ('A'.val ≤ c.val ∧ c.val ≤ 'Z'.val) || decide ('a'.val ≤ c.val) && decide (c.val ≤ 'z'.val)) ||
        decide ('0'.val ≤ c.val) && decide (c.val ≤ '9'.val)) = true := h
    simp only [Bool.or_eq_true, Bool.and_eq_true, decide_eq_true_eq, UInt32.le_iff_toNat_le] at h
    have hA : 'A'.val.toNat = 65 := rfl
    have hZ : 'Z'.val.toNat = 90 := rfl
    have ha : 'a'.val.toNat = 97 := rfl
    have hz : 'z'.val.toNat = 122 := rfl
    have h0 : '0'.val.toNat = 48 := rfl
    have h9 : '9'.val.toNat = 57 := rfl
    rw [hA, hZ, ha, hz, h0, h9] at h
    omega
  · decide
  · decide
  · decide

theorem space_of_name {c : Char} (h : 39 ≤ c.val.toNat ∧ c.val.toNat ≤ 122) : C.space c = false := by
  have hlt : c.val < 128 := by
    rw [UInt32.lt_iff_toNat_lt]
    exact Nat.lt_of_le_of_lt h.2 (by decide)
  have hspace : c ≠ ' ' := by
    rintro rfl
    exact absurd h (by decide)
  have h13 : (13 : UInt32).toNat = 13 := rfl
  have h31 : (31 : UInt32).toNat = 31 := rfl
  rw [C.space_ascii c hlt]
  simp only [Bool.or_eq_false_iff, Bool.and_eq_false_iff, beq_eq_false_iff_ne, decide_eq_false_iff_not,
    UInt32.le_iff_toNat_le, h13, h31]
  exact ⟨⟨hspace, Or.inr (by omega)⟩, Or.inr (by omega)⟩

theorem PlainName.chars {text : Text} (h : PlainName text) {c : Char} (hc : c ∈ identifier text) :
    (c ≠ '-' ∧ c ≠ '/' ∧ c ≠ '"' ∧ c ≠ '«') ∧ C.space c = false ∧ isLineEnd c = false := by
  obtain ⟨hlow, hhigh, hdash, hslash⟩ := name_char (plain_cases (List.all_eq_true.mp h.ascii c hc))
  refine ⟨⟨?_, ?_, ?_, ?_⟩, space_of_name ⟨hlow, hhigh⟩, ?_⟩
  · rintro rfl
    exact hdash rfl
  · rintro rfl
    exact hslash rfl
  · rintro rfl
    exact absurd hlow (by decide)
  · rintro rfl
    exact absurd hhigh (by decide)
  · by_contra hend
    rw [Bool.not_eq_false, isLineEnd, decide_eq_true_eq] at hend
    simp only [List.mem_cons, List.not_mem_nil, or_false] at hend
    rcases hend with rfl | rfl | rfl | rfl | rfl | rfl | rfl | rfl | rfl | rfl <;> revert hlow hhigh <;> decide

/-- A name of the index has only visible characters. -/
theorem visible_of_name {c : Char} (h : Pattern.isNameChar c = true) : Visible c := by
  constructor
  · rintro rfl
    cases h
  · rintro rfl
    cases h

theorem hyphen_of_name {c : Char} (h : Pattern.isNameChar c = true) (hstop : isIdentifierChar c = false) : c = '-' := by
  unfold Pattern.isNameChar at h
  unfold isIdentifierChar at hstop
  cases hletter : c.isAlphanum <;> cases hline : c == '_' <;> cases hprime : c == '\'' <;> simp_all

/-- In the mask, what follows a plain name does not go on with it. -/
theorem PlainName.stops {text rest : Text} (h : PlainName text) (tail : Text)
    (hmask : (scanner.read .code (text.drop (identifier text).length) none).1 = rest ++ tail) :
    rest.head?.all (fun c => !Pattern.isNameChar c) = true ∧ ∀ c, ['.', c] <+: rest → Pattern.isNameChar c = false := by
  obtain ⟨first, parts, -, -, -, -, -, hhead, hdot⟩ := h.parted
  constructor
  · cases rest with
    | nil => rfl
    | cons c rest =>
      rw [List.head?_cons, Option.all_some, Bool.not_eq_true']
      by_contra hc
      rw [Bool.not_eq_false] at hc
      obtain ⟨after, hafter, -⟩ := head_of_visible hmask (visible_of_name hc)
      rw [hafter] at hhead
      obtain rfl := hyphen_of_name hc (by simpa using hhead)
      exact h.hyphen (by rw [hmask]; simp)
  · intro c hprefixed
    obtain ⟨more, rfl⟩ := hprefixed
    by_contra hc
    rw [Bool.not_eq_false] at hc
    have hmask' : (scanner.read .code (text.drop (identifier text).length) none).1 = '.' :: c :: (more ++ tail) := hmask
    obtain ⟨after, hafter, hread⟩ := head_of_visible hmask' ⟨by decide, by decide⟩
    obtain ⟨after', rfl, -⟩ := head_of_visible hread (visible_of_name hc)
    obtain rfl := hyphen_of_name hc (hdot c (by rw [hafter]; simp))
    exact h.dotted (by rw [hmask]; simp)

theorem anonymous_marked (kind : String) (number : Nat) :
    "[anonymous".toList <+: s!"[anonymous {kind} @ line {number}]".toList := by
  have hword : (toString "[anonymous ").toList = "[anonymous".toList ++ [' '] := rfl
  simp only [String.toList_append, hword, List.append_assoc]
  exact List.prefix_append ..

/-- **A plain name is read as a whole.** -/
theorem declared_name {source mask line stop kind name text : Text} {i number : Nat} (hmask : lean_code_mask source = .ok mask)
    (hline : (split_lines mask)[i]? = some (line, stop)) (hdeclared : declaration_line C number line = some (kind, name))
    (hnamed : ¬"[anonymous".toList <+: name)
    (hwhite : FollowsWhite C (source.drop (offset mask i + (line.length - (keyword_rest C line).length))) text) (hplain : PlainName text) :
    name = identifier text := by
  unfold declaration_line at hdeclared
  dsimp only at hdeclared
  split at hdeclared
  · cases hdeclared
  · split at hdeclared
    · cases hdeclared
    · rename_i found hfound
      obtain ⟨-, hname⟩ := Prod.mk.inj (Option.some.inj hdeclared)
      obtain ⟨front, word, rest, s, before, taken, hparts, hword, hvisible, hs, hrun⟩ := preamble_match hfound
      obtain ⟨hafter, hnone⟩ := after_keyword hrun
      have hrest : keyword_rest C line = s :: rest := by simp [keyword_rest, hfound, hafter]
      obtain ⟨tail, htail, hend⟩ := drop_offset hline
      set at_rest := offset mask i + (line.length - (keyword_rest C line).length) with hat
      have hlength : line.length - (keyword_rest C line).length = (front ++ word).length := by
        rw [hrest, hparts, List.length_append, List.length_cons]
        omega
      obtain ⟨stem, c, rfl⟩ : ∃ stem c, word = stem ++ [c] := ⟨_, _, (List.dropLast_append_getLast hword).symm⟩
      have hmask_eq : mask = mask.take (offset mask i) ++ front ++ stem ++ [c] ++ (s :: rest ++ tail) := by
        have hsplit := List.take_append_drop (offset mask i) mask
        rw [htail, hparts] at hsplit
        exact hsplit.symm.trans (by simp)
      have hat_length : at_rest = (mask.take (offset mask i) ++ front ++ stem ++ [c]).length := by
        have hbound := congrArg List.length htail
        rw [hparts] at hbound
        simp only [List.length_append, List.length_drop, List.length_cons, List.length_nil] at hbound
        rw [hat, hlength]
        simp only [List.length_append, List.length_take]
        omega
      have hread : (scanner.read .code (source.drop at_rest) none).1 = s :: rest ++ tail := by
        rw [hat_length]
        refine read_behind ?_ (hvisible c (by simp))
        rw [(mask_eq_ok.mp hmask).1]
        exact hmask_eq
      obtain ⟨n, -, hdrop, hblank⟩ := hwhite
      set ident := identifier text with hident
      have hwhole : text = ident ++ text.drop ident.length := by
        obtain ⟨-, -, -, hwhole, -⟩ := hplain.parted
        exact hwhole
      rw [hread, hwhole, read_chars fun c hc => (hplain.chars (C := C) hc).1] at hdrop
      set masked := (scanner.read .code (text.drop ident.length) none).1 with hmasked
      -- The blank stretch before the identifier is what the expression skips.
      have hskipped : (s :: rest ++ tail).dropWhile C.space = ident ++ masked := by
        rw [hread] at hblank
        obtain ⟨d, more, hfirst⟩ := List.exists_cons_of_ne_nil hplain.named
        have hd : C.space d = false := (hplain.chars (by rw [hfirst]; simp)).2.1
        rw [← List.take_append_drop n (s :: rest ++ tail), List.dropWhile_append_of_pos hblank, hdrop, hident, hfirst,
          List.cons_append, List.dropWhile_cons_of_neg (by simp [hd])]
      have hfound_name : rest.dropWhile C.space ≠ [] := by
        intro hempty
        rw [hnone hempty, Option.getD_none, if_pos (by rfl)] at hname
        rw [← hname] at hnamed
        exact hnamed (anonymous_marked _ _)
      have hsame : rest.dropWhile C.space ++ tail = ident ++ masked := by
        rw [← hskipped, List.cons_append, List.dropWhile_cons_of_pos hs, List.dropWhile_append,
          if_neg (by rw [List.isEmpty_iff]; exact hfound_name)]
      obtain ⟨v, hv, hmasked_eq⟩ : ∃ v, rest.dropWhile C.space = ident ++ v ∧ masked = v ++ tail := by
        rcases List.append_eq_append_iff.mp hsame with ⟨more, hmore, htail_eq⟩ | hmore
        · cases more with
          | nil => exact ⟨[], by simpa using hmore.symm, by simpa using htail_eq.symm⟩
          | cons d more =>
            have hd : isLineEnd d = false := (hplain.chars (C := C) (by rw [← hident, hmore]; simp)).2.2
            rw [htail_eq] at hend
            simp [hd] at hend
        · exact hmore
      obtain ⟨hhead, hdot⟩ := hplain.stops tail hmasked_eq
      obtain ⟨first, parts, hname_eq, -, hne, hfirst, hwords, -, -⟩ := hplain.parted
      have hparted : Parted Pattern.isNameChar Pattern.isNameChar (rest.dropWhile C.space) ident v :=
        ⟨first, parts, hname_eq, hv, hne, hfirst, hwords, hhead, hdot⟩
      set k : Regex.At Char → Option (Regex.At Char) := fun b =>
        some { b with groups := (2, (rest.dropWhile C.space).take ((rest.dropWhile C.space).length - b.rest.length), b.rest) ::
          b.groups } with hk
      have htotal (before : Option Char) : (k ⟨before, v, [(1, taken, s :: rest)]⟩).isSome = true := rfl
      obtain ⟨last, hlast⟩ := run_name hparted htotal before
      have hgroup : found.group 2 = some ident := by
        have htaken : (rest.dropWhile C.space).take ((rest.dropWhile C.space).length - v.length) = ident := by
          rw [hv, List.length_append, Nat.add_sub_cancel, List.take_left]
        rw [hk] at hlast
        dsimp only at hlast
        rw [htaken] at hlast
        have hopt : Regex.run (.seq (.opt (.group 2 Pattern.declaration_name)) .empty)
            ⟨before, rest.dropWhile C.space, [(1, taken, s :: rest)]⟩ some =
              some ⟨last, v, [(2, ident, v), (1, taken, s :: rest)]⟩ := by
          simp only [Regex.opt, Regex.run]
          split
          · rename_i b hb
            exact hb.symm.trans hlast
          · rename_i hb
            cases hb.symm.trans hlast
        rw [hrun] at hopt
        rw [Option.some.inj hopt]
        rfl
      have hstrip : strip C ident = ident := strip_eq fun c hc => (hplain.chars hc).2.1
      rw [hgroup, Option.getD_some, hstrip, if_neg hplain.named] at hname
      exact hname.symm

end Keyword

end LeanFlow.Source
