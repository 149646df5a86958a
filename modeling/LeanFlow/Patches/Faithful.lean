import LeanFlow.Patches.Occurrences
import Mathlib.Data.List.Nodup
import Mathlib.Data.List.Pairwise

/-! When a replacement is faithful to what the matcher has compared.

The spans stand in the order of the text. They are the texts that were compared where the
matcher over blanks finds none with blanks around it, and they can be replaced one by one
where no two of them overlap. -/
namespace LeanFlow.Patches
open General Source

variable {C : CharClass}

/-! ### Replacing -/

/-- The content with its spans replaced, from left to right, behind a position. -/
def splice (content new_string : Text) : Nat → List Span → Text
  | pos, [] => content.drop pos
  | pos, (start, stop) :: spans => (content.take start).drop pos ++ new_string ++ splice content new_string stop spans

/-- Spans in order, none before a position. -/
def Ordered (content : Text) : Nat → List Span → Prop
  | _, [] => True
  | pos, (start, stop) :: spans => pos ≤ start ∧ start ≤ stop ∧ stop ≤ content.length ∧ Ordered content stop spans

theorem ordered_of {content : Text} {spans : List Span} {pos : Nat} (hpos : ∀ span ∈ spans, pos ≤ span.1)
    (hrange : ∀ span ∈ spans, span.1 ≤ span.2 ∧ span.2 ≤ content.length) (hdisjoint : spans.Pairwise fun a b => a.2 ≤ b.1) :
    Ordered content pos spans := by
  induction spans generalizing pos with
  | nil => trivial
  | cons span spans ih =>
    obtain ⟨hspan, hrest⟩ := List.forall_mem_cons.mp hrange
    obtain ⟨hfirst, hdisjoint⟩ := List.pairwise_cons.mp hdisjoint
    exact ⟨hpos span (List.mem_cons_self ..), hspan.1, hspan.2, ih hfirst hrest hdisjoint⟩

/-- Replaced from the last to the first, the text before a position stays as it is. -/
theorem foldr_splice {content new_string : Text} {spans : List Span} {pos : Nat} (h : Ordered content pos spans) :
    spans.foldr (fun span result => result.take span.1 ++ new_string ++ result.drop span.2) content =
      content.take pos ++ splice content new_string pos spans := by
  induction spans generalizing pos with
  | nil => exact (List.take_append_drop pos content).symm
  | cons span spans ih =>
    obtain ⟨start, stop⟩ := span
    obtain ⟨hpos, hle, hstop, hrest⟩ := h
    have hlength : (content.take stop).length = stop := List.length_take_of_le hstop
    have htake : (content.take stop ++ splice content new_string stop spans).take start = content.take start := by
      rw [List.take_append_of_le_length (by omega), List.take_take, Nat.min_eq_left hle]
    have hdrop : (content.take stop ++ splice content new_string stop spans).drop stop = splice content new_string stop spans :=
      List.drop_left' hlength
    have hsplit : content.take start = content.take pos ++ (content.take start).drop pos := by
      have heq := (List.take_append_drop pos (content.take start)).symm
      rwa [List.take_take, Nat.min_eq_left hpos] at heq
    rw [List.foldr_cons, ih hrest]
    show (content.take stop ++ splice content new_string stop spans).take start ++ new_string ++
      (content.take stop ++ splice content new_string stop spans).drop stop = _
    rw [htake, hdrop, splice, hsplit, List.append_assoc, List.append_assoc, List.append_assoc, List.drop_left' (by
      rw [List.length_take_of_le (by omega)])]

/-- Spans in order are replaced from the last to the first. -/
theorem apply_replacements_eq {content new_string : Text} {spans : List Span} (h : spans.Pairwise fun a b => a.1 < b.1) :
    apply_replacements content spans new_string =
      spans.foldr (fun span result => result.take span.1 ++ new_string ++ result.drop span.2) content := by
  have hsorted : spans.mergeSort (fun x y => y.1 ≤ x.1) = spans.reverse := by
    have hperm : (spans.mergeSort fun x y => y.1 ≤ x.1).Perm spans.reverse :=
      (List.mergeSort_perm ..).trans (List.reverse_perm spans).symm
    have hpairs := @List.pairwise_mergeSort _ (fun x y : Span => decide (y.1 ≤ x.1)) (fun a b c hab hbc => by
      simp only [decide_eq_true_eq] at hab hbc ⊢
      omega) (fun a b => by simpa using Nat.le_total b.1 a.1) spans
    refine List.Perm.eq_of_pairwise ?_ hpairs (List.pairwise_reverse.mpr (h.imp fun hlt => by simpa using Nat.le_of_lt hlt)) hperm
    intro a b ha hb hab hba
    simp only [decide_eq_true_eq] at hab hba
    have hdistinct : (spans.map Prod.fst).Nodup := List.pairwise_map.mpr (h.imp fun hlt => Nat.ne_of_lt hlt)
    exact List.inj_on_of_nodup_map hdistinct ((List.mergeSort_perm ..).mem_iff.mp ha) (List.mem_reverse.mp hb) (Nat.le_antisymm hba hab)
  rw [apply_replacements, hsorted, List.foldl_reverse]

/-! ### All occurrences of the pattern -/

theorem replace_from_skip (old new : Text) (n : Nat) (text : Text) : replace_from old new n text = replace_from old new 0 (text.drop n) := by
  induction n generalizing text with
  | zero => rfl
  | succ n ih =>
    cases text with
    | nil => rfl
    | cons c text => exact ih text

/-- Behind a stretch at which the pattern does not begin. -/
theorem occurrences_skip {pattern : Text} {pos n : Nat} {text : Text} (hn : n ≤ text.length) (h : ∀ i < n, ¬pattern <+: text.drop i) :
    occurrences pattern pos text = occurrences pattern (pos + n) (text.drop n) := by
  induction n generalizing pos text with
  | zero => rfl
  | succ n ih =>
    cases text with
    | nil => cases hn
    | cons c text =>
      have hfirst : ¬pattern.isPrefixOf (c :: text) = true := fun hprefix => h 0 (Nat.succ_pos n) (List.isPrefixOf_iff_prefix.mp hprefix)
      rw [occurrences, if_neg hfirst, ih (Nat.le_of_succ_le_succ hn) fun i hi => h (i + 1) (Nat.succ_lt_succ hi), List.drop_succ_cons]
      congr 1
      omega

/-- The pattern does not begin within an occurrence of it. -/
def Unbordered (pattern text : Text) : Prop := ∀ i j, i < j → pattern <+: text.drop i → pattern <+: text.drop j → i + pattern.length ≤ j

theorem Unbordered.drop {pattern text : Text} (h : Unbordered pattern text) (n : Nat) : Unbordered pattern (text.drop n) := by
  intro i j hlt hi hj
  rw [List.drop_drop] at hi hj
  have := h (n + i) (n + j) (by omega) hi hj
  omega

theorem splice_cons {content new_string : Text} {pos : Nat} {c : Char} {rest : Text} (hcontent : content.drop pos = c :: rest)
    {spans : List Span} (hspans : ∀ span ∈ spans, pos < span.1) :
    splice content new_string pos spans = c :: splice content new_string (pos + 1) spans := by
  have hnext : content.drop (pos + 1) = rest := by
    rw [← List.drop_drop, hcontent]
    rfl
  cases spans with
  | nil => rw [splice, splice, hcontent, hnext]
  | cons span spans =>
    obtain ⟨start, stop⟩ := span
    have hlt : pos < start := hspans _ (List.mem_cons_self ..)
    have hdrop : (content.take start).drop pos = c :: (content.take start).drop (pos + 1) := by
      rw [List.drop_take, List.drop_take, hcontent, hnext, show start - pos = start - (pos + 1) + 1 by omega, List.take_succ_cons]
    rw [splice, splice, hdrop]
    rfl

/-- Where no two occurrences overlap, replacing all of them is `str.replace`. -/
theorem splice_occurrences {pattern new_string content : Text} (hpattern : pattern ≠ []) {n : Nat} {pos : Nat} {rest : Text}
    (hn : rest.length ≤ n) (hrest : content.drop pos = rest) (hapart : Unbordered pattern rest) :
    splice content new_string pos (occurrences pattern pos rest) = replace_from pattern new_string 0 rest := by
  induction n generalizing pos rest with
  | zero =>
    obtain rfl := List.length_eq_zero_iff.mp (Nat.le_zero.mp hn)
    rw [occurrences, if_neg hpattern, splice, hrest, replace_from]
  | succ n ih =>
    cases rest with
    | nil => rw [occurrences, if_neg hpattern, splice, hrest, replace_from]
    | cons c rest =>
      have hlater : content.drop (pos + 1) = rest := by
        rw [← List.drop_drop, hrest]
        rfl
      have hlength := List.length_pos_iff.mpr hpattern
      rw [occurrences, replace_from]
      split
      · rename_i hprefix
        have hpre := List.isPrefixOf_iff_prefix.mp hprefix
        have hle : pattern.length - 1 ≤ rest.length := by
          have := hpre.length_le
          rw [List.length_cons] at this
          omega
        have hskip : occurrences pattern (pos + 1) rest =
            occurrences pattern (pos + pattern.length) (rest.drop (pattern.length - 1)) := by
          rw [occurrences_skip hle]
          · congr 1
            omega
          · intro i hi hbegin
            have := hapart 0 (i + 1) (Nat.succ_pos i) hpre hbegin
            omega
        have hbehind : content.drop (pos + pattern.length) = rest.drop (pattern.length - 1) := by
          rw [← hlater, List.drop_drop]
          congr 1
          omega
        have htake : (content.take pos).drop pos = [] := by
          rw [List.drop_take, Nat.sub_self, List.take_zero]
        have hshort : (rest.drop (pattern.length - 1)).length ≤ n := by
          rw [List.length_drop]
          rw [List.length_cons] at hn
          omega
        have hrest_apart : Unbordered pattern (rest.drop (pattern.length - 1)) := by
          have hdrop := hapart.drop (pattern.length - 1 + 1)
          rwa [List.drop_succ_cons] at hdrop
        rw [hskip, splice, htake, List.nil_append, ih hshort hbehind hrest_apart, ← replace_from_skip]
      · rw [splice_cons hrest fun span hspan => ?_, ih (Nat.le_of_succ_le_succ hn) hlater (hapart.drop 1)]
        obtain ⟨before, after, -, rfl⟩ := mem_occurrences.mp hspan
        show pos < pos + 1 + before.length
        omega

/-! ### Faithful replacements -/

/-- The spans lie in the content and do not overlap, each is a text that the matcher makes
equal to the pattern, and nothing else is replaced. -/
structure Faithful (C : CharClass) (strategy : Strategy) (content pattern new_string : Text) (replace_all : Bool) (spans : List Span)
    (result : Text) : Prop where
  range : ∀ span ∈ spans, span.1 ≤ span.2 ∧ span.2 ≤ content.length
  disjoint : spans.Pairwise fun a b => a.2 ≤ b.1 ∨ b.2 ≤ a.1
  same : ∀ span ∈ spans, strategy.of_text C (span.text content) = strategy.of_pattern C pattern
  outside : result = splice content new_string 0 spans
  exact : replace_all = true → strategy = .exact → result = replace pattern new_string content

/-- No text that the matcher takes for the pattern begins within another one. -/
def Strategy.Apart (C : CharClass) (strategy : Strategy) (content pattern : Text) : Prop :=
  ∀ before text after before' text' after', strategy.Occurs C content pattern before text after →
    strategy.Occurs C content pattern before' text' after' → before.length < before'.length →
      before.length + text.length ≤ before'.length

/-- A text that the matcher over blanks takes for the pattern has no blank behind it, and
before it none that stands behind a space. -/
def Strategy.Tight (C : CharClass) (strategy : Strategy) (content pattern : Text) : Prop :=
  strategy = .whitespace_normalized → ∀ before text after, strategy.Occurs C content pattern before text after →
    (∀ start blanks, before = start ++ ' ' :: blanks → blanks.all blank = true → blanks = []) ∧
      ∀ c, after.head? = some c → blank c = false

theorem solid_eq_length {passed : Bool} {x : Text} : solid passed x = x.length ↔
    (∀ start blanks, x = start ++ ' ' :: blanks → blanks.all blank = true → blanks = []) ∧
      (passed = true → x.all blank = true → x = []) := by
  induction x generalizing passed with
  | nil =>
    refine ⟨fun _ => ⟨fun start blanks h => ?_, fun _ _ => rfl⟩, fun _ => rfl⟩
    exact absurd h.symm (by simp)
  | cons c x ih =>
    have hcons (h : ∀ start blanks, x = start ++ ' ' :: blanks → blanks.all blank = true → blanks = [])
        (hfirst : c = ' ' → x.all blank = true → x = []) :
        ∀ start blanks, c :: x = start ++ ' ' :: blanks → blanks.all blank = true → blanks = [] := by
      intro start blanks heq hblanks
      cases start with
      | nil =>
        obtain ⟨rfl, rfl⟩ := List.cons.inj heq
        exact hfirst rfl hblanks
      | cons d start => exact h start blanks (List.cons.inj heq).2 hblanks
    have htail (h : ∀ start blanks, c :: x = start ++ ' ' :: blanks → blanks.all blank = true → blanks = []) :
        ∀ start blanks, x = start ++ ' ' :: blanks → blanks.all blank = true → blanks = [] :=
      fun start blanks heq => h (c :: start) blanks (congrArg (c :: ·) heq)
    rw [solid, List.length_cons]
    cases hc : blank c with
    | false =>
      rw [if_neg Bool.false_ne_true, Nat.add_right_cancel_iff, ih]
      have hspace : c ≠ ' ' := fun heq => by
        rw [heq] at hc
        cases hc
      constructor
      · rintro ⟨h, -⟩
        refine ⟨hcons h fun heq => absurd heq hspace, fun _ hall => ?_⟩
        rw [List.all_cons, hc] at hall
        cases hall
      · rintro ⟨h, -⟩
        exact ⟨htail h, fun hfalse => absurd hfalse Bool.false_ne_true⟩
    | true =>
      rw [if_pos rfl]
      cases passed with
      | true =>
        rw [if_pos rfl]
        cases hx : x.all blank with
        | true =>
          rw [if_pos rfl]
          refine ⟨fun h => absurd h (Nat.succ_ne_zero _).symm, fun h => ?_⟩
          exact absurd (h.2 rfl (by rw [List.all_cons, hc, hx]; rfl)) (List.cons_ne_nil c x)
        | false =>
          rw [if_neg Bool.false_ne_true, Nat.add_right_cancel_iff, ih]
          constructor
          · rintro ⟨h, -⟩
            refine ⟨hcons h fun _ hall => ?_, fun _ hall => ?_⟩
            · rw [hx] at hall
              cases hall
            · rw [List.all_cons, hx, Bool.and_false] at hall
              cases hall
          · rintro ⟨h, -⟩
            refine ⟨htail h, fun _ hall => ?_⟩
            rw [hx] at hall
            cases hall
      | false =>
        rw [if_neg Bool.false_ne_true]
        by_cases hspace : c = ' '
        · rw [if_pos hspace, Nat.add_right_cancel_iff, ih]
          constructor
          · rintro ⟨h, hall⟩
            exact ⟨hcons h fun _ => hall rfl, fun hfalse => absurd hfalse Bool.false_ne_true⟩
          · rintro ⟨h, -⟩
            exact ⟨htail h, fun _ hall => h [] x (by rw [hspace]; rfl) hall⟩
        · rw [if_neg hspace, Nat.add_right_cancel_iff, ih]
          constructor
          · rintro ⟨h, -⟩
            exact ⟨hcons h fun heq => absurd heq hspace, fun hfalse => absurd hfalse Bool.false_ne_true⟩
          · rintro ⟨h, -⟩
            exact ⟨htail h, fun hfalse => absurd hfalse Bool.false_ne_true⟩

section Spans

variable (M : Measure) (cfg : FuzzyConfig) {content pattern new_string : Text} {strategy : Strategy}

theorem span_text (before text after : Text) :
    Span.text (before ++ (text ++ after)) (before.length, before.length + text.length) = text := by
  rw [Span.text, ← List.append_assoc, ← List.length_append, List.take_left, List.drop_left]

/-- The span over blanks has the blanks around the text. -/
theorem blank_span_text (before text after : Text) : Span.text (before ++ (text ++ after)) (blank_span before text after) =
    before.drop (solid false before) ++ (text ++ after.takeWhile blank) := by
  obtain ⟨rest, hrest⟩ := List.takeWhile_prefix (p := blank) (l := after)
  have htake : (before ++ (text ++ after)).take (before.length + text.length + (after.takeWhile blank).length) =
      before ++ (text ++ after.takeWhile blank) := by
    have hcontent : before ++ (text ++ after) = before ++ (text ++ after.takeWhile blank) ++ rest := by
      rw [List.append_assoc, List.append_assoc, hrest]
    have hlength : before.length + text.length + (after.takeWhile blank).length =
        (before ++ (text ++ after.takeWhile blank)).length := by
      rw [List.length_append, List.length_append]
      omega
    rw [hlength, hcontent, List.take_left]
  rw [Span.text, blank_span, htake, List.drop_append_of_le_length (solid_le false before)]

/-- With blanks around it a text does not collapse to the same. -/
theorem blank_span_same {before text after : Text} (htext : text ≠ []) (hbefore : Uncut false before text) (hafter : Uncut false text after) :
    normalize (Span.text (before ++ (text ++ after)) (blank_span before text after)) = normalize text ↔
      solid false before = before.length ∧ ∀ c, after.head? = some c → blank c = false := by
  rw [blank_span_text]
  have hsolid := solid_le false before
  have hwhile : (∀ c, after.head? = some c → blank c = false) ↔ after.takeWhile blank = [] := by
    cases after with
    | nil => simp
    | cons c after => cases hc : blank c <;> simp [hc]
  rw [hwhile]
  constructor
  · intro h
    have hnone : before.drop (solid false before) = [] := by
      cases hdrop : before.drop (solid false before) with
      | nil => rfl
      | cons c blanks =>
        have hblank := blank_behind_solid false before
        rw [hdrop] at hblank
        have hc : blank c = true := List.all_eq_true.mp hblank c (List.mem_cons_self ..)
        have hbehind : behind false before = true := by
          have hlast : before.getLast? = (c :: blanks).getLast? := by
            rw [← List.take_append_drop (solid false before) before, hdrop, List.getLast?_append_of_ne_nil _ (List.cons_ne_nil c blanks)]
          rw [behind, hlast, List.getLast?_eq_some_getLast (List.cons_ne_nil c blanks)]
          exact List.all_eq_true.mp hblank _ (List.getLast_mem _)
        obtain ⟨d, text, rfl⟩ := List.exists_cons_of_ne_nil htext
        have hd := hbefore hbehind d rfl
        rw [hdrop, normalize, normalize, List.cons_append, collapse_blank hc, collapse_other hd] at h
        rw [← (List.cons.inj h).1] at hd
        cases hd
    refine ⟨Nat.le_antisymm hsolid (List.drop_eq_nil_iff.mp hnone), ?_⟩
    by_contra hsome
    have hbehind : behind false text = false := by
      by_contra htrue
      refine hsome (hwhile.mp (hafter (by simpa using htrue)))
    rw [hnone, List.nil_append, normalize, collapse_append, hbehind] at h
    have hlength := congrArg List.length h
    rw [List.length_append] at hlength
    rcases collapse_eq_nil.mp (List.length_eq_zero_iff.mp (Nat.add_eq_left.mp hlength)) with hnil | ⟨hfalse, -⟩
    · exact hsome hnil
    · cases hfalse
  · rintro ⟨hlength, hnone⟩
    rw [hlength, List.drop_length, hnone, List.nil_append, List.append_nil]

/-- What the spans of a matcher are when none has blanks around it. -/
theorem mem_spans_tight (hpattern : pattern ≠ []) (h : strategy.structural = true) (htight : strategy.Tight C content pattern) {span : Span} :
    span ∈ strategy.spans M C cfg content pattern ↔
      ∃ before text after, strategy.Occurs C content pattern before text after ∧ span = (before.length, before.length + text.length) := by
  by_cases hblank : strategy = .whitespace_normalized
  · subst hblank
    have hspan {before text after : Text} (hoccurs : Strategy.whitespace_normalized.Occurs C content pattern before text after) :
        blank_span before text after = (before.length, before.length + text.length) := by
      obtain ⟨hsolid, hafter⟩ := htight rfl before text after hoccurs
      have hlength := (@solid_eq_length false before).mpr ⟨hsolid, fun hfalse => nomatch hfalse⟩
      have hnone : after.takeWhile blank = [] := by
        cases after with
        | nil => rfl
        | cons c after => simp [hafter c rfl]
      rw [blank_span, hlength, hnone]
      rfl
    rw [mem_blank_spans M cfg hpattern]
    exact exists_congr fun before => exists_congr fun text => exists_congr fun after =>
      and_congr_right fun hoccurs => by rw [hspan hoccurs]
  · exact mem_spans M cfg h hblank

/-- A matcher's spans are replaced faithfully where its texts are apart and tight. -/
theorem faithful_iff (hpattern : pattern ≠ []) (h : strategy.structural = true) {replace_all : Bool} :
    Faithful C strategy content pattern new_string replace_all (strategy.spans M C cfg content pattern)
        (apply_replacements content (strategy.spans M C cfg content pattern) new_string) ↔
      strategy.Apart C content pattern ∧ strategy.Tight C content pattern := by
  have hascending : (strategy.spans M C cfg content pattern).Pairwise (fun a b => a.1 < b.1) := spans_ascending M cfg h hpattern
  constructor
  · intro hfaithful
    have htight : strategy.Tight C content pattern := by
      rintro rfl before text after hoccurs
      have hsame := hfaithful.same _ ((mem_blank_spans M cfg hpattern).mpr ⟨before, text, after, hoccurs, rfl⟩)
      rw [hoccurs.content_eq] at hsame
      obtain ⟨hlength, hafter⟩ := (blank_span_same (hoccurs.ne_nil hpattern) hoccurs.edges.1 hoccurs.edges.2).mp
        (hsame.trans hoccurs.same.symm)
      exact ⟨(solid_eq_length.mp hlength).1, hafter⟩
    refine ⟨fun before text after before' text' after' hoccurs hoccurs' hlt => ?_, htight⟩
    have hmem := (mem_spans_tight M cfg hpattern h htight).mpr ⟨before, text, after, hoccurs, rfl⟩
    have hmem' := (mem_spans_tight M cfg hpattern h htight).mpr ⟨before', text', after', hoccurs', rfl⟩
    have hsymm : Std.Symm fun a b : Span => a.2 ≤ b.1 ∨ b.2 ≤ a.1 := ⟨fun _ _ hor => hor.symm⟩
    have hne : ((before.length, before.length + text.length) : Span) ≠ (before'.length, before'.length + text'.length) := fun heq =>
      absurd (Prod.ext_iff.mp heq).1 (Nat.ne_of_lt hlt)
    rcases hfaithful.disjoint.forall hmem hmem' hne with hle | hle
    · exact hle
    · have hle' : before'.length + text'.length ≤ before.length := hle
      omega
  · rintro ⟨hapart, htight⟩
    have hmem {span : Span} : span ∈ strategy.spans M C cfg content pattern ↔ ∃ before text after,
        strategy.Occurs C content pattern before text after ∧ span = (before.length, before.length + text.length) :=
      mem_spans_tight M cfg hpattern h htight
    have hrange : ∀ span ∈ strategy.spans M C cfg content pattern, span.1 ≤ span.2 ∧ span.2 ≤ content.length := by
      intro span hspan
      obtain ⟨before, text, after, hoccurs, rfl⟩ := hmem.mp hspan
      refine ⟨Nat.le_add_right _ _, ?_⟩
      rw [hoccurs.content_eq, List.length_append, List.length_append]
      omega
    have hdisjoint : (strategy.spans M C cfg content pattern).Pairwise fun a b => a.2 ≤ b.1 := by
      refine hascending.imp_of_mem fun {a b} ha hb hlt => ?_
      obtain ⟨before, text, after, hoccurs, rfl⟩ := hmem.mp ha
      obtain ⟨before', text', after', hoccurs', rfl⟩ := hmem.mp hb
      exact hapart before text after before' text' after' hoccurs hoccurs' hlt
    have houtside : apply_replacements content (strategy.spans M C cfg content pattern) new_string =
        splice content new_string 0 (strategy.spans M C cfg content pattern) := by
      rw [apply_replacements_eq hascending, foldr_splice (ordered_of (fun span _ => Nat.zero_le _) hrange hdisjoint), List.take_zero,
        List.nil_append]
    refine ⟨hrange, hdisjoint.imp Or.inl, ?_, houtside, ?_⟩
    · intro span hspan
      obtain ⟨before, text, after, hoccurs, rfl⟩ := hmem.mp hspan
      rw [hoccurs.content_eq, span_text]
      exact hoccurs.same
    · rintro - rfl
      rw [houtside]
      refine splice_occurrences hpattern (Nat.le_refl _) List.drop_zero ?_
      have hoccurs (i : Nat) (hi : pattern <+: content.drop i) :
          ∃ after, i ≤ content.length ∧ Strategy.exact.Occurs C content pattern (content.take i) pattern after := by
        obtain ⟨after, hafter⟩ := hi
        refine ⟨after, ?_, ⟨by rw [hafter, List.take_append_drop], trivial, trivial, rfl⟩⟩
        by_contra hlong
        rw [List.drop_eq_nil_of_le (by omega)] at hafter
        exact hpattern (List.append_eq_nil_iff.mp hafter).1
      intro i j hlt hi hj
      obtain ⟨after, hle, hfirst⟩ := hoccurs i hi
      obtain ⟨after', hle', hsecond⟩ := hoccurs j hj
      have hfar := hapart _ _ _ _ _ _ hfirst hsecond
      rw [List.length_take_of_le hle, List.length_take_of_le hle'] at hfar
      exact hfar hlt

/-! ### The chain -/

/-- The first matcher of the chain that takes a text for the pattern. -/
def FuzzyConfig.Chooses (C : CharClass) (cfg : FuzzyConfig) (content pattern : Text) (strategy : Strategy) : Prop :=
  ∃ earlier later, cfg.strategies = earlier ++ strategy :: later ∧
    (∀ other ∈ earlier, ∀ before text after, ¬other.Occurs C content pattern before text after) ∧
    ∃ before text after, strategy.Occurs C content pattern before text after

/-- It takes one text for it. -/
def Strategy.Single (C : CharClass) (strategy : Strategy) (content pattern : Text) : Prop :=
  ∀ before text after before' text' after', strategy.Occurs C content pattern before text after →
    strategy.Occurs C content pattern before' text' after' → before = before' ∧ text = text'

theorem strategies_structural (cfg : FuzzyConfig) : cfg.strategies.Pairwise fun a b => b.structural = true → a.structural = true := by
  unfold FuzzyConfig.strategies
  cases cfg.allow_structural <;> cases cfg.allow_fuzzy <;> decide

theorem exists_span (hpattern : pattern ≠ []) (h : strategy.structural = true) {before text after : Text}
    (hoccurs : strategy.Occurs C content pattern before text after) :
    ∃ span ∈ strategy.spans M C cfg content pattern,
      span = if strategy = .whitespace_normalized then blank_span before text after else (before.length, before.length + text.length) := by
  refine ⟨_, ?_, rfl⟩
  by_cases hblank : strategy = .whitespace_normalized
  · subst hblank
    rw [if_pos rfl]
    exact (mem_blank_spans M cfg hpattern).mpr ⟨before, text, after, hoccurs, rfl⟩
  · rw [if_neg hblank]
    exact (mem_spans M cfg h hblank).mpr ⟨before, text, after, hoccurs, rfl⟩

theorem exists_occurs (hpattern : pattern ≠ []) (h : strategy.structural = true) {span : Span}
    (hspan : span ∈ strategy.spans M C cfg content pattern) : ∃ before text after, strategy.Occurs C content pattern before text after ∧
      span = if strategy = .whitespace_normalized then blank_span before text after else (before.length, before.length + text.length) := by
  by_cases hblank : strategy = .whitespace_normalized
  · subst hblank
    obtain ⟨before, text, after, hoccurs, hspan⟩ := (mem_blank_spans M cfg hpattern).mp hspan
    exact ⟨before, text, after, hoccurs, by rw [if_pos rfl, hspan]⟩
  · obtain ⟨before, text, after, hoccurs, hspan⟩ := (mem_spans M cfg h hblank).mp hspan
    exact ⟨before, text, after, hoccurs, by rw [if_neg hblank, hspan]⟩

/-- One span is one text. -/
theorem occurs_unique (hpattern : pattern ≠ []) {before text after before' text' after' : Text}
    (hoccurs : strategy.Occurs C content pattern before text after) (hoccurs' : strategy.Occurs C content pattern before' text' after')
    (hspan : (if strategy = .whitespace_normalized then blank_span before text after else (before.length, before.length + text.length)) =
      if strategy = .whitespace_normalized then blank_span before' text' after' else (before'.length, before'.length + text'.length)) :
    before = before' ∧ text = text' := by
  have hcontent := hoccurs.content_eq.symm.trans hoccurs'.content_eq
  by_cases hblank : strategy = .whitespace_normalized
  · subst hblank
    rw [if_pos rfl, if_pos rfl] at hspan
    have hsolid : solid false before = solid false before' := (Prod.ext_iff.mp hspan).1
    have hlength : (normalize before).length = (normalize before').length := by
      rcases Nat.lt_trichotomy (normalize before).length (normalize before').length with hlt | heq | hlt
      · exact absurd hsolid (Nat.ne_of_lt (solid_lt hpattern hoccurs hoccurs' hlt))
      · exact heq
      · exact absurd hsolid.symm (Nat.ne_of_lt (solid_lt hpattern hoccurs' hoccurs hlt))
    have hbefore := split_unique rfl hcontent (hoccurs.edges.1.append (hoccurs.ne_nil hpattern))
      (hoccurs'.edges.1.append (hoccurs'.ne_nil hpattern)) hlength
    subst hbefore
    refine ⟨rfl, split_unique rfl (List.append_cancel_left hcontent) hoccurs.edges.2 hoccurs'.edges.2 ?_⟩
    exact congrArg List.length (hoccurs.same.trans hoccurs'.same.symm)
  · rw [if_neg hblank, if_neg hblank] at hspan
    obtain ⟨hstart, hstop⟩ := Prod.ext_iff.mp hspan
    obtain ⟨rfl, hrest⟩ := List.append_inj hcontent hstart
    exact ⟨rfl, (List.append_inj hrest (Nat.add_left_cancel hstop)).1⟩

theorem single_iff (hpattern : pattern ≠ []) (h : strategy.structural = true) :
    (strategy.spans M C cfg content pattern).length ≤ 1 ↔ strategy.Single C content pattern := by
  constructor
  · intro hlength before text after before' text' after' hoccurs hoccurs'
    obtain ⟨span, hspan, heq⟩ := exists_span M cfg hpattern h hoccurs
    obtain ⟨span', hspan', heq'⟩ := exists_span M cfg hpattern h hoccurs'
    refine occurs_unique hpattern hoccurs hoccurs' ?_
    rw [← heq, ← heq']
    match hspans : strategy.spans M C cfg content pattern with
    | [] =>
      rw [hspans] at hspan
      cases hspan
    | [only] =>
      rw [hspans] at hspan hspan'
      rw [List.mem_singleton.mp hspan, List.mem_singleton.mp hspan']
    | _ :: _ :: _ =>
      rw [hspans] at hlength
      cases Nat.le_of_succ_le_succ hlength
  · intro hsingle
    have hascending : (strategy.spans M C cfg content pattern).Pairwise (fun a b => a.1 < b.1) := spans_ascending M cfg h hpattern
    by_contra hlength
    match hspans : strategy.spans M C cfg content pattern with
    | [] => exact hlength (by rw [hspans]; exact Nat.zero_le 1)
    | [_] => exact hlength (by rw [hspans]; exact Nat.le_refl 1)
    | span :: span' :: rest =>
      rw [hspans] at hascending
      have hlt := (List.pairwise_cons.mp hascending).1 span' (List.mem_cons_self ..)
      obtain ⟨before, text, after, hoccurs, heq⟩ := exists_occurs M cfg hpattern h
        (hspans ▸ List.mem_cons_self (a := span) (l := span' :: rest))
      obtain ⟨before', text', after', hoccurs', heq'⟩ := exists_occurs M cfg hpattern h
        (hspans ▸ List.mem_cons_of_mem span (List.mem_cons_self (a := span') (l := rest)))
      obtain ⟨rfl, rfl⟩ := hsingle _ _ _ _ _ _ hoccurs hoccurs'
      obtain rfl := List.append_cancel_left (List.append_cancel_left (hoccurs.content_eq.symm.trans hoccurs'.content_eq))
      rw [heq, heq'] at hlt
      exact Nat.lt_irrefl _ hlt

theorem spans_nonempty_iff (hpattern : pattern ≠ []) (h : strategy.structural = true) :
    (!(strategy.spans M C cfg content pattern).isEmpty) = true ↔ ∃ before text after, strategy.Occurs C content pattern before text after := by
  constructor
  · intro hne
    cases hspans : strategy.spans M C cfg content pattern with
    | nil =>
      rw [hspans] at hne
      cases hne
    | cons span spans =>
      obtain ⟨before, text, after, hoccurs, -⟩ := exists_occurs M cfg hpattern h
        (hspans ▸ List.mem_cons_self (a := span) (l := spans))
      exact ⟨before, text, after, hoccurs⟩
  · rintro ⟨before, text, after, hoccurs⟩
    obtain ⟨span, hspan, -⟩ := exists_span M cfg hpattern h hoccurs
    cases hspans : strategy.spans M C cfg content pattern with
    | nil =>
      rw [hspans] at hspan
      cases hspan
    | cons => rfl

theorem chooses_iff (hpattern : pattern ≠ []) (h : strategy.structural = true) :
    cfg.strategies.find? (fun strategy => !(strategy.spans M C cfg content pattern).isEmpty) = some strategy ↔
      cfg.Chooses C content pattern strategy := by
  rw [List.find?_eq_some_iff_append, spans_nonempty_iff M cfg hpattern h]
  have hearlier {earlier later : List Strategy} (hsplit : cfg.strategies = earlier ++ strategy :: later) :
      ∀ other ∈ earlier, other.structural = true := by
    have hchain := strategies_structural cfg
    rw [hsplit] at hchain
    exact fun other hother => (List.pairwise_append.mp hchain).2.2 other hother strategy (List.mem_cons_self ..) h
  constructor
  · rintro ⟨hoccurs, earlier, later, hsplit, hnone⟩
    refine ⟨earlier, later, hsplit, fun other hother before text after hother_occurs => ?_, hoccurs⟩
    have hempty := hnone other hother
    rw [(spans_nonempty_iff M cfg hpattern (hearlier hsplit other hother)).mpr ⟨before, text, after, hother_occurs⟩] at hempty
    cases hempty
  · rintro ⟨earlier, later, hsplit, hnone, hoccurs⟩
    refine ⟨hoccurs, earlier, later, hsplit, fun other hother => ?_⟩
    rw [Bool.not_eq_true']
    by_contra hne
    obtain ⟨before, text, after, hother_occurs⟩ := (spans_nonempty_iff M cfg hpattern (hearlier hsplit other hother)).mp
      (by simpa using hne)
    exact hnone other hother before text after hother_occurs

/-- A replacement that a structural matcher makes is faithful, for every new text, if and
only if the texts that the first matcher takes for the pattern are apart and tight. -/
theorem structural_faithful_iff (hpattern : pattern ≠ []) (replace_all : Bool) :
    (∀ strategy, (fuzzy_find_and_replace_ex M C content pattern new_string replace_all cfg).strategy = some strategy →
      strategy.structural = true → Faithful C strategy content pattern new_string replace_all (strategy.spans M C cfg content pattern)
        (fuzzy_find_and_replace_ex M C content pattern new_string replace_all cfg).content) ↔
      pattern = new_string ∨ ∀ strategy : Strategy, strategy.structural = true → cfg.Chooses C content pattern strategy →
        replace_all = true ∨ strategy.Single C content pattern → strategy.Apart C content pattern ∧ strategy.Tight C content pattern := by
  by_cases hsame : pattern = new_string
  · refine ⟨fun _ => Or.inl hsame, fun _ strategy hstrategy => ?_⟩
    rw [fuzzy_find_and_replace_ex, if_neg hpattern, if_pos hsame] at hstrategy
    cases hstrategy
  · have hresult (strategy : Strategy)
        (hfind : cfg.strategies.find? (fun strategy => !(strategy.spans M C cfg content pattern).isEmpty) = some strategy) :
        fuzzy_find_and_replace_ex M C content pattern new_string replace_all cfg =
          if 1 < (strategy.spans M C cfg content pattern).length && !replace_all then
            { content := content, count := 0,
              error := some s!"Found {(strategy.spans M C cfg content pattern).length} matches for old_string. Provide more context to make it unique, or use replace_all=True.".toList }
          else
            { content := apply_replacements content (strategy.spans M C cfg content pattern) new_string
              count := (strategy.spans M C cfg content pattern).length, strategy := some strategy
              similarity := some (match_similarity M C content pattern (strategy.spans M C cfg content pattern) strategy) } := by
      rw [fuzzy_find_and_replace_ex, if_neg hpattern, if_neg hsame, hfind]
    have hready (strategy : Strategy) (h : strategy.structural = true) : ¬(1 < (strategy.spans M C cfg content pattern).length && !replace_all) = true ↔
        replace_all = true ∨ strategy.Single C content pattern := by
      rw [← single_iff M cfg hpattern h]
      cases replace_all <;> simp
    constructor
    · intro hfaithful
      refine Or.inr fun strategy h hchooses hone => ?_
      have heq := hresult strategy ((chooses_iff M cfg hpattern h).mpr hchooses)
      rw [if_neg ((hready strategy h).mpr hone)] at heq
      have hthis := hfaithful strategy (by rw [heq]) h
      rw [heq] at hthis
      exact (faithful_iff M cfg hpattern h).mp hthis
    · rintro (heq | hclear) strategy hstrategy h
      · exact absurd heq hsame
      · cases hfind : cfg.strategies.find? (fun strategy => !(strategy.spans M C cfg content pattern).isEmpty) with
        | none =>
          rw [fuzzy_find_and_replace_ex, if_neg hpattern, if_neg hsame, hfind] at hstrategy
          cases hstrategy
        | some found =>
          have heq := hresult found hfind
          by_cases hmany : (1 < (found.spans M C cfg content pattern).length && !replace_all) = true
          · rw [if_pos hmany] at heq
            rw [heq] at hstrategy
            cases hstrategy
          · rw [if_neg hmany] at heq
            rw [heq] at hstrategy ⊢
            obtain rfl : found = strategy := Option.some.inj hstrategy
            exact (faithful_iff M cfg hpattern h).mpr (hclear found h ((chooses_iff M cfg hpattern h).mp hfind) ((hready found h).mp hmany))

end Spans

/-- Measures that no structural matcher asks. -/
def Measure.none : Measure := ⟨fun _ _ => 0, id, fun _ => ""⟩

/-- A pattern of one character overlaps nothing. -/
theorem letter_replaced :
    Faithful .ascii .exact "xy".toList "y".toList "z".toList true (Strategy.exact.spans .none .ascii default_config "xy".toList "y".toList)
      (fuzzy_find_and_replace_ex .none .ascii "xy".toList "y".toList "z".toList true default_config).content := by
  refine (structural_faithful_iff .none default_config (by decide) true).mpr (Or.inr fun strategy _ hchooses _ => ?_) .exact rfl rfl
  obtain ⟨earlier, later, hsplit, hnone, -⟩ := hchooses
  cases earlier with
  | cons other earlier =>
    obtain ⟨rfl, -⟩ := List.cons.inj hsplit
    exact absurd ⟨rfl, trivial, trivial, rfl⟩ (hnone .exact (List.mem_cons_self ..) "x".toList "y".toList [])
  | nil =>
    obtain ⟨rfl, -⟩ := List.cons.inj hsplit
    refine ⟨fun before text after before' text' after' hoccurs _ hlt => ?_, fun hblank => nomatch hblank⟩
    have htext : text = "y".toList := hoccurs.same
    rw [htext]
    exact hlt

/-- Two occurrences of `aa` in `aaa` overlap, and replacing both leaves less than `str.replace`. -/
theorem overlap_replaced :
    (fuzzy_find_and_replace_ex .none .ascii "aaa".toList "aa".toList "b".toList true default_config).strategy = some .exact ∧
      ¬Faithful .ascii .exact "aaa".toList "aa".toList "b".toList true
        (Strategy.exact.spans .none .ascii default_config "aaa".toList "aa".toList)
        (fuzzy_find_and_replace_ex .none .ascii "aaa".toList "aa".toList "b".toList true default_config).content := by
  have hspans : Strategy.exact.spans .none .ascii default_config "aaa".toList "aa".toList = [(0, 2), (1, 3)] := by decide
  refine ⟨rfl, fun h => ?_⟩
  have hdisjoint := h.disjoint
  rw [hspans] at hdisjoint
  exact absurd hdisjoint (by decide)

/-- The space behind the blanks of `x  a  b` goes with the text that is replaced. -/
theorem blank_replaced :
    (fuzzy_find_and_replace_ex .none .ascii "x  a  b".toList "a b".toList "c".toList false default_config).strategy =
        some .whitespace_normalized ∧
      ¬Faithful .ascii .whitespace_normalized "x  a  b".toList "a b".toList "c".toList false
        (Strategy.whitespace_normalized.spans .none .ascii default_config "x  a  b".toList "a b".toList)
        (fuzzy_find_and_replace_ex .none .ascii "x  a  b".toList "a b".toList "c".toList false default_config).content := by
  have hspans : Strategy.whitespace_normalized.spans .none .ascii default_config "x  a  b".toList "a b".toList = [(2, 7)] := by decide
  refine ⟨by decide, fun h => ?_⟩
  have hsame := h.same (2, 7) (by rw [hspans]; exact List.mem_singleton_self _)
  exact absurd hsame (by decide)

end LeanFlow.Patches
