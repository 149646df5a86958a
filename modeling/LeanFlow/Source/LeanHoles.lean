import LeanFlow.Source.LeanTokens
import LeanFlow.Source.Tokens

/-! The holes of a text as Lean reads it.

A hole is a `sorry` that is a token of its own. The pattern of `sorry_spans` looks at the
characters on both sides: it takes the start of `sorry!` and of `sorry.x` for a hole, and
passes over one behind a digit or a character literal. On the code of a text it finds the
holes and nothing else just when no name and no symbol misleads it so (`mask_exact`). -/
namespace LeanFlow.Source
open General

/-! ### Holes -/

/-- The next token goes on with the name before it. -/
def goes_on : List LeanToken → Bool
  | token :: _ => token.kind == .name && token.text.head? == some '.'
  | [] => false

/-- A `sorry` that is no part of a longer name; the tokens after it are `rest`. -/
def is_hole (token : LeanToken) (rest : List LeanToken) : Bool := token.kind == .name && token.text == hole && !goes_on rest

/-- Where the holes are, counted from the position of the first token. -/
def sorry_tokens (pos : Nat) : List LeanToken → List (Nat × Nat)
  | [] => []
  | token :: rest =>
    (if is_hole token rest then [(pos, pos + 5)] else []) ++ sorry_tokens (pos + token.text.length) rest

section Seen

variable (C : CharClass)

/-- What the pattern finds in a text before `after`, by where it starts. -/
def found_in (previous : Option Char) (pos : Nat) : Text → Text → List (Nat × Nat)
  | [], _ => []
  | c :: text, after =>
    (if tokenAt C previous (c :: (text ++ after)) then [(pos, pos + 5)] else []) ++ found_in (some c) (pos + 1) text after

/-- Each hole stands alone for the pattern, and in no other name and in no symbol it finds one. -/
def holes_seen (previous : Option Char) : List LeanToken → Bool
  | [] => true
  | token :: rest =>
    (if is_hole token rest then startsToken C previous && endsToken C (lean_code rest).head?
      else (token.kind != .name && token.kind != .symbol) || (found_in C previous 0 token.text (lean_code rest)).isEmpty) &&
    holes_seen (lastOr previous token.code) rest

end Seen

/-! ### What the pattern finds -/

section Found

variable {C : CharClass}

theorem tokens_split (previous : Option Char) (pos : Nat) (text after : Text) : tokens C previous pos (text ++ after) =
    found_in C previous pos text after ++ tokens C (lastOr previous text) (pos + text.length) after := by
  induction text generalizing previous pos with
  | nil => rfl
  | cons c text ih =>
    have hlength : pos + (c :: text).length = pos + 1 + text.length := by
      rw [List.length_cons]
      omega
    rw [List.cons_append, tokens, ih, found_in, lastOr_cons, hlength]
    split <;> rfl

theorem found_bounds {previous : Option Char} {pos : Nat} {text after : Text} {span : Nat × Nat}
    (h : span ∈ found_in C previous pos text after) : pos ≤ span.1 ∧ span.1 < pos + text.length := by
  induction text generalizing previous pos with
  | nil => cases h
  | cons c text ih =>
    rw [List.length_cons]
    rcases List.mem_append.mp h with h | h
    · split at h
      · rw [List.mem_singleton.mp h]
        dsimp only
        omega
      · cases h
    · have := ih h
      omega

theorem found_shift {previous : Option Char} {text after : Text} (pos : Nat) :
    found_in C previous pos text after = [] ↔ found_in C previous 0 text after = [] := by
  have hzero (previous : Option Char) (pos pos' : Nat) (h : found_in C previous pos text after = []) :
      found_in C previous pos' text after = [] := by
    induction text generalizing previous pos pos' with
    | nil => rfl
    | cons c text ih =>
      rw [found_in, List.append_eq_nil_iff] at h ⊢
      refine ⟨?_, ih _ _ _ h.2⟩
      split
      · rw [if_pos ‹_›] at h
        cases h.1
      · rfl
  exact ⟨hzero _ _ _, hzero _ _ _⟩

/-- A hole starts with an `s`. -/
theorem tokenAt_ne {previous : Option Char} {c : Char} (hc : c ≠ 's') (rest : Text) : tokenAt C previous (c :: rest) = false := by
  have hprefix : hole.isPrefixOf (c :: rest) = false := by
    rw [Bool.eq_false_iff]
    intro h
    exact hc (List.cons_prefix_cons.mp (List.isPrefixOf_iff_prefix.mp h)).1.symm
  simp [tokenAt, hprefix]

theorem found_quiet {text : Text} (h : ∀ c ∈ text, c ≠ 's') (previous : Option Char) (pos : Nat) (after : Text) :
    found_in C previous pos text after = [] := by
  induction text generalizing previous pos with
  | nil => rfl
  | cons c text ih =>
    obtain ⟨hc, htext⟩ := List.forall_mem_cons.mp h
    rw [found_in, tokenAt_ne hc, if_neg Bool.false_ne_true, ih htext]
    rfl

/-- In the letters of a hole only the hole itself can start. -/
theorem found_hole (previous : Option Char) (pos : Nat) (after : Text) : found_in C previous pos hole after =
    if startsToken C previous && endsToken C after.head? then [(pos, pos + 5)] else [] := by
  have hfirst : tokenAt C previous (hole ++ after) = (startsToken C previous && endsToken C after.head?) := by
    have hopens : hole.isPrefixOf (hole ++ after) = true := List.isPrefixOf_iff_prefix.mpr (List.prefix_append ..)
    have hdrop : (hole ++ after).drop 5 = after := rfl
    rw [tokenAt, hopens, hdrop, Bool.and_true]
  have hletters : ∀ c ∈ ['o', 'r', 'r', 'y'], c ≠ 's' := by simp
  have hcons : found_in C previous pos hole after = (if tokenAt C previous (hole ++ after) then [(pos, pos + 5)] else []) ++
      found_in C (some 's') (pos + 1) ['o', 'r', 'r', 'y'] after := rfl
  rw [hcons, found_quiet hletters, List.append_nil, hfirst]

theorem blank_quiet (text : Text) : ∀ c ∈ text.map blank, c ≠ 's' := by
  intro c hc
  obtain ⟨d, -, rfl⟩ := List.mem_map.mp hc
  unfold blank
  split
  · rename_i hd
    rw [hd]
    decide
  · decide

end Found

/-! ### Tokens without a hole -/

theorem take_takeWhile (p : Char → Bool) (text : Text) : text.take (text.takeWhile p).length = text.takeWhile p :=
  (List.prefix_iff_eq_take.mp (List.takeWhile_prefix p)).symm

theorem take_digits {p : Char → Bool} (hp : p 's' = false) (text : Text) : ∀ c ∈ text.take (text.takeWhile p).length, c ≠ 's' := by
  rw [take_takeWhile]
  intro c hc hs
  rw [hs] at hc
  rw [List.mem_takeWhile_imp hc] at hp
  cases hp

theorem decimal_quiet (text : Text) : ∀ c ∈ text.take (number_length.decimal text), c ≠ 's' := by
  have hdigit : (fun c : Char => c.isDigit || c == '_') 's' = false := by decide
  have hdigits := take_digits (p := fun c => c.isDigit || c == '_') hdigit text
  unfold number_length.decimal
  dsimp only
  split
  · rename_i e rest hrest
    split
    · rename_i he
      intro c hc
      have hsplit : text.take ((text.takeWhile fun c => c.isDigit || c == '_').length + 1 + (rest.takeWhile Char.isDigit).length) =
          text.take (text.takeWhile fun c => c.isDigit || c == '_').length ++ e :: rest.take (rest.takeWhile Char.isDigit).length := by
        rw [Nat.add_assoc, List.take_add, hrest, Nat.add_comm 1, List.take_succ_cons]
      rw [hsplit, List.mem_append, List.mem_cons] at hc
      rcases hc with hc | rfl | hc
      · exact hdigits c hc
      · rintro rfl
        exact absurd he (by simp)
      · exact take_digits (p := Char.isDigit) (by decide) rest c hc
    · exact hdigits
  · exact hdigits

theorem number_quiet (text : Text) : ∀ c ∈ text.take (number_length text), c ≠ 's' := by
  have hradix {p : Char → Bool} (hp : p 's' = false) {d e : Char} (hd : d ≠ 's') (he : e ≠ 's') (rest : Text) :
      ∀ c ∈ (d :: e :: rest).take (2 + (rest.takeWhile fun c => p c || c == '_').length), c ≠ 's' := by
    have hrest := take_digits (p := fun c => p c || c == '_') (by simp [hp]) rest
    rw [Nat.add_comm, List.take_succ_cons, List.take_succ_cons]
    exact List.forall_mem_cons.mpr ⟨hd, List.forall_mem_cons.mpr ⟨he, hrest⟩⟩
  unfold number_length
  dsimp only
  split
  · rename_i e rest
    split
    · rename_i he
      refine hradix (by decide) (by decide) ?_ rest
      rintro rfl
      exact absurd he (by decide)
    · split
      · rename_i he
        refine hradix (by decide) (by decide) ?_ rest
        rintro rfl
        exact absurd he (by decide)
      · exact decimal_quiet _
  · exact decimal_quiet _

theorem hex_quiet {c : Char} (h : hex_digit c = true) : c ≠ 's' := by
  rintro rfl
  exact absurd h (by decide)

theorem escape_quiet {text : Text} {n : Nat} (h : escape_length text = some n) : ∀ c ∈ text.take n, c ≠ 's' := by
  unfold escape_length at h
  split at h
  · rename_i a b rest
    split at h
    · rename_i hhex
      obtain rfl := Option.some.inj h
      obtain ⟨ha, hb⟩ := Bool.and_eq_true_iff.mp hhex
      simp [hex_quiet ha, hex_quiet hb]
    · cases h
  · rename_i a b c d rest
    split at h
    · rename_i hhex
      obtain rfl := Option.some.inj h
      have hall := List.all_eq_true.mp hhex
      simp [hex_quiet (hall a (by simp)), hex_quiet (hall b (by simp)), hex_quiet (hall c (by simp)), hex_quiet (hall d (by simp))]
    · cases h
  · rename_i c rest _ _
    split at h
    · rename_i hc
      obtain rfl := Option.some.inj h
      have hne : c ≠ 's' := by
        rintro rfl
        exact absurd hc (by decide)
      simp [hne]
    · cases h
  · cases h

/-- A character literal is an escape or one character, between quotes. -/
theorem character_cases {c : Char} {rest : Text} {k : Nat} (h : character_length (c :: rest) = some k) :
    ∃ content, k = content + 2 ∧ (rest.drop content).head? = some '\'' ∧
      (c = '\\' ∧ escape_length rest = some content ∨ content = 0) := by
  have hclosed {content : Nat} (h : (if (rest.drop content).head? = some '\'' then some (content + 2) else none) = some k) :
      k = content + 2 ∧ (rest.drop content).head? = some '\'' := by
    split at h
    · exact ⟨(Option.some.inj h).symm, ‹_›⟩
    · cases h
  rw [character_length] at h
  by_cases hc : c = '\\'
  · rw [if_pos hc] at h
    obtain ⟨content, hcontent, hclose⟩ := Option.bind_eq_some_iff.mp h
    exact ⟨content, (hclosed hclose).1, (hclosed hclose).2, Or.inl ⟨hc, hcontent⟩⟩
  · rw [if_neg hc] at h
    obtain ⟨content, hcontent, hclose⟩ := Option.bind_eq_some_iff.mp h
    obtain rfl := Option.some.inj hcontent
    exact ⟨0, (hclosed hclose).1, (hclosed hclose).2, Or.inr rfl⟩

theorem character_quiet {C : CharClass} {rest : Text} {k : Nat} (h : character_length rest = some k) (previous : Option Char) (pos : Nat)
    (after : Text) : found_in C previous pos (('\'' :: rest).take (k + 1)) after = [] := by
  cases rest with
  | nil => cases h
  | cons c rest =>
    obtain ⟨content, rfl, hquote, hcontent⟩ := character_cases h
    obtain ⟨more, hmore⟩ := head_eq hquote
    have htake : ('\'' :: c :: rest).take (content + 2 + 1) = '\'' :: c :: (rest.take content ++ ['\'']) := by
      rw [List.take_succ_cons, List.take_succ_cons, List.take_add, hmore]
      rfl
    have hmark : ∀ d ∈ ['\''], d ≠ 's' := by simp
    rw [htake]
    rcases hcontent with ⟨rfl, hcontent⟩ | rfl
    · refine found_quiet (List.forall_mem_cons.mpr ⟨by decide, List.forall_mem_cons.mpr ⟨by decide, ?_⟩⟩) ..
      exact List.forall_mem_append.mpr ⟨escape_quiet hcontent, hmark⟩
    · have hinside : tokenAt C (some '\'') (c :: '\'' :: after) = false := by
        have hprefix : hole.isPrefixOf (c :: '\'' :: after) = false := by
          rw [Bool.eq_false_iff]
          intro hp
          have htail := (List.cons_prefix_cons.mp (List.isPrefixOf_iff_prefix.mp hp)).2
          exact absurd (List.cons_prefix_cons.mp htail).1 (by decide)
        simp [tokenAt, hprefix]
      rw [List.take_zero, List.nil_append, found_in, tokenAt_ne (by decide), found_in, found_quiet hmark]
      show [] ++ ((if tokenAt C (some '\'') (c :: '\'' :: after) then _ else []) ++ []) = []
      rw [hinside]
      rfl

/-! ### The holes of a text -/

theorem sorry_bounds {pos : Nat} {tokens : List LeanToken} {span : Nat × Nat} (h : span ∈ sorry_tokens pos tokens) : pos ≤ span.1 := by
  induction tokens generalizing pos with
  | nil => cases h
  | cons token rest ih =>
    rcases List.mem_append.mp h with h | h
    · split at h
      · rw [List.mem_singleton.mp h]
      · cases h
    · exact (Nat.le_add_right ..).trans (ih h)

/-- Two lists that are apart at a position are equal part by part. -/
theorem append_apart {p : Nat} {a a' b b' : List (Nat × Nat)} (ha : ∀ span ∈ a, span.1 < p) (ha' : ∀ span ∈ a', span.1 < p)
    (hb : ∀ span ∈ b, p ≤ span.1) (hb' : ∀ span ∈ b', p ≤ span.1) : a ++ b = a' ++ b' ↔ a = a' ∧ b = b' := by
  have hfilter {a b : List (Nat × Nat)} (ha : ∀ span ∈ a, span.1 < p) (hb : ∀ span ∈ b, p ≤ span.1) :
      (a ++ b).filter (fun span => span.1 < p) = a := by
    rw [List.filter_append, List.filter_eq_self.mpr fun span hspan => by simp [ha span hspan],
      List.filter_eq_nil_iff.mpr fun span hspan => by simp [hb span hspan], List.append_nil]
  constructor
  · intro h
    have hfront : a = a' := by rw [← hfilter ha hb, h, hfilter ha' hb']
    exact ⟨hfront, List.append_cancel_left (hfront ▸ h)⟩
  · rintro ⟨rfl, rfl⟩
    rfl

variable {C : CharClass}

/-- What the pattern finds in one token. -/
theorem found_token {symbols : List Text} {behind_name : Bool} {text : Text} {kind : TokenKind} {n : Nat}
    (h : next_token symbols behind_name text = some (kind, n)) (rest : List LeanToken) (previous : Option Char) (pos : Nat) :
    found_in C previous pos (LeanToken.code ⟨kind, text.take n⟩) (lean_code rest) =
        (if is_hole ⟨kind, text.take n⟩ rest then [(pos, pos + 5)] else []) ↔
      (if is_hole ⟨kind, text.take n⟩ rest then startsToken C previous && endsToken C (lean_code rest).head?
        else (kind != .name && kind != .symbol) || (found_in C previous 0 (text.take n) (lean_code rest)).isEmpty) = true := by
  by_cases hhole : is_hole ⟨kind, text.take n⟩ rest = true
  · rw [if_pos hhole, if_pos hhole]
    simp only [is_hole, Bool.and_eq_true, beq_iff_eq] at hhole
    obtain ⟨⟨rfl, htext⟩, -⟩ := hhole
    show found_in C previous pos (text.take n) (lean_code rest) = _ ↔ _
    rw [htext, found_hole]
    by_cases hstands : (startsToken C previous && endsToken C (lean_code rest).head?) = true
    · rw [if_pos hstands]
      exact iff_of_true rfl hstands
    · rw [if_neg hstands]
      exact iff_of_false (fun hnil => absurd hnil.symm (List.cons_ne_nil _ _)) hstands
  · rw [if_neg hhole, if_neg hhole]
    by_cases hother : kind = .name ∨ kind = .symbol
    · have hkind : (kind != .name && kind != .symbol) = false := by rcases hother with rfl | rfl <;> rfl
      have hcode : LeanToken.code ⟨kind, text.take n⟩ = text.take n := by rcases hother with rfl | rfl <;> rfl
      rw [hkind, hcode, Bool.false_or, List.isEmpty_iff, found_shift]
    · rw [not_or] at hother
      have hkind : (kind != .name && kind != .symbol) = true := by simp [hother.1, hother.2]
      rw [hkind, Bool.true_or]
      refine iff_of_true ?_ rfl
      by_cases hhidden : kind.hidden = true
      · rw [LeanToken.code, if_pos hhidden]
        exact found_quiet (blank_quiet _) ..
      · rw [LeanToken.code, if_neg hhidden]
        cases starts_of_next h with
        | character hk => exact character_quiet hk ..
        | number rest hdigit => exact found_quiet (number_quiet _) ..
        | part => exact absurd rfl hother.1
        | dot => exact absurd rfl hother.1
        | name => exact absurd rfl hother.1
        | symbol => exact absurd rfl hother.2
        | line_comment => exact absurd rfl hhidden
        | block_comment => exact absurd rfl hhidden
        | string => exact absurd rfl hhidden
        | quoted => exact absurd rfl hhidden
        | raw_string => exact absurd rfl hhidden

/-- On the code of a text the pattern finds its holes just when they are seen. -/
theorem tokens_lex {symbols : List Text} {fuel : Nat} {behind_name : Bool} {text : Text} {found : List LeanToken}
    (h : lex_from symbols fuel behind_name text = some found) (previous : Option Char) (pos : Nat) :
    tokens C previous pos (lean_code found) = sorry_tokens pos found ↔ holes_seen C previous found = true := by
  induction fuel generalizing behind_name text found previous pos with
  | zero =>
    by_cases hne : text = []
    · subst hne
      obtain rfl := Option.some.inj h
      exact iff_of_true rfl rfl
    · obtain ⟨_, _, _, _, _, hfuel, _⟩ := lex_cons hne h
      cases hfuel
  | succ fuel ih =>
    by_cases hne : text = []
    · subst hne
      obtain rfl := Option.some.inj h
      exact iff_of_true rfl rfl
    · obtain ⟨fuel', behind_name', kind, n, more, hfuel, hnext, hmore, rfl⟩ := lex_cons hne h
      obtain rfl := Nat.succ.inj hfuel
      have hcode : lean_code (⟨kind, text.take n⟩ :: more) = LeanToken.code ⟨kind, text.take n⟩ ++ lean_code more := rfl
      have hlength : (LeanToken.code ⟨kind, text.take n⟩).length = (text.take n).length := length_code _
      rw [hcode, tokens_split, hlength, sorry_tokens, holes_seen, Bool.and_eq_true, ← found_token hnext more previous pos,
        ← ih hmore (lastOr previous (LeanToken.code ⟨kind, text.take n⟩)) (pos + (text.take n).length)]
      refine append_apart (p := pos + (text.take n).length) (fun span hspan => ?_) (fun span hspan => ?_) (fun span hspan => ?_)
        fun span hspan => sorry_bounds hspan
      · have := (found_bounds hspan).2
        omega
      · split at hspan
        · rename_i hhole
          rw [List.mem_singleton.mp hspan]
          simp only [is_hole, Bool.and_eq_true, beq_iff_eq] at hhole
          rw [hhole.1.2]
          show pos < pos + 5
          omega
        · cases hspan
      · exact (tokens_bounds hspan).1

/-- Each hole of the text stands in its mask, and stands alone there for the pattern. -/
def HolesShown (C : CharClass) (symbols : List Text) (text : Text) : Prop :=
  ∀ found mask, lex symbols text = some found → lean_code_mask text = .ok mask →
    ∀ span ∈ sorry_tokens 0 found, tokenAt C (mask.take span.1).getLast? (mask.drop span.1) = true

theorem tokenAt_of_tokens {mask : Text} (h : tokens C none 0 mask = []) (position : Nat) :
    tokenAt C (mask.take position).getLast? (mask.drop position) = false := by
  have hsplit := tokens_split (C := C) none 0 (mask.take position) (mask.drop position)
  rw [List.take_append_drop, h, eq_comm, List.append_eq_nil_iff, lastOr, Option.or_none] at hsplit
  cases htext : mask.drop position with
  | nil => simp [tokenAt, hole]
  | cons c rest =>
    rw [htext, tokens] at hsplit
    rw [Bool.eq_false_iff]
    intro hat
    rw [if_pos hat] at hsplit
    cases hsplit.2

/-- A text in which nothing was found has no hole, if its holes are shown. -/
theorem holes_of_shown {symbols : List Text} {text : Text} {found : List LeanToken} (hlex : lex symbols text = some found)
    (hnone : sorry_spans C text = .ok []) (hshown : HolesShown C symbols text) : sorry_tokens 0 found = [] := by
  unfold sorry_spans at hnone
  cases hmask : lean_code_mask text with
  | error e =>
    rw [hmask] at hnone
    cases hnone
  | ok mask =>
    rw [hmask] at hnone
    refine List.eq_nil_iff_forall_not_mem.mpr fun span hspan => ?_
    have hat := hshown found mask hlex hmask span hspan
    rw [tokenAt_of_tokens (Except.ok.inj hnone)] at hat
    cases hat

end LeanFlow.Source
