import LeanFlow.General.Split
import LeanFlow.Patches.Blanks

/-! What the structural matchers find.

Every matcher compares a text of the content with the pattern after its own normalization
(`Strategy.of_text`, `Strategy.of_pattern`), at edges of its own. The spans of a matcher
are these occurrences; only the matcher over blanks moves their ends (`mem_spans`). -/
namespace LeanFlow.Patches
open General Source

variable {C : CharClass}

/-! ### Exact occurrences -/

theorem mem_occurrences {pattern : Text} {pos : Nat} {content : Text} {span : Span} : span ∈ occurrences pattern pos content ↔
    ∃ before after, content = before ++ (pattern ++ after) ∧ span = (pos + before.length, pos + before.length + pattern.length) := by
  induction content generalizing pos with
  | nil =>
    unfold occurrences
    constructor
    · intro h
      split at h
      · rename_i hnil
        exact ⟨[], [], by rw [hnil]; rfl, by rw [List.mem_singleton.mp h, hnil]; rfl⟩
      · cases h
    · rintro ⟨before, after, hcontent, rfl⟩
      obtain ⟨rfl, hrest⟩ := List.append_eq_nil_iff.mp hcontent.symm
      obtain ⟨rfl, -⟩ := List.append_eq_nil_iff.mp hrest
      exact List.mem_singleton_self _
  | cons c rest ih =>
    have hlater : span ∈ occurrences pattern (pos + 1) rest ↔ ∃ before after, c :: rest = c :: before ++ (pattern ++ after) ∧
        span = (pos + (c :: before).length, pos + (c :: before).length + pattern.length) := by
      rw [ih]
      simp [Nat.add_assoc, Nat.add_comm 1]
    unfold occurrences
    constructor
    · intro h
      split at h
      · rename_i hprefix
        rcases List.mem_cons.mp h with rfl | h
        · obtain ⟨after, hafter⟩ := List.isPrefixOf_iff_prefix.mp hprefix
          exact ⟨[], after, hafter.symm, rfl⟩
        · obtain ⟨before, after, heq⟩ := hlater.mp h
          exact ⟨c :: before, after, heq⟩
      · obtain ⟨before, after, heq⟩ := hlater.mp h
        exact ⟨c :: before, after, heq⟩
    · rintro ⟨before, after, hcontent, hspan⟩
      cases before with
      | nil =>
        have hprefix : pattern.isPrefixOf (c :: rest) = true := List.isPrefixOf_iff_prefix.mpr ⟨after, hcontent.symm⟩
        rw [if_pos hprefix, hspan]
        exact List.mem_cons_self ..
      | cons d before =>
        obtain ⟨rfl, -⟩ := List.cons.inj hcontent
        have hmem := hlater.mpr ⟨before, after, hcontent, hspan⟩
        split
        · exact List.mem_cons_of_mem _ hmem
        · exact hmem

theorem occurrences_ascending (pattern : Text) (pos : Nat) (content : Text) :
    (occurrences pattern pos content).Pairwise (fun a b => a.1 < b.1) := by
  induction content generalizing pos with
  | nil =>
    unfold occurrences
    split
    · exact List.pairwise_singleton ..
    · exact List.Pairwise.nil
  | cons c rest ih =>
    unfold occurrences
    split
    · refine List.Pairwise.cons (fun span hspan => ?_) (ih (pos + 1))
      obtain ⟨before, after, -, rfl⟩ := mem_occurrences.mp hspan
      show pos < pos + 1 + before.length
      omega
    · exact ih (pos + 1)

/-! ### Lines -/

def openLines (lines : List Text) : Text := lines.flatMap (· ++ ['\n'])

def moreLines (lines : List Text) : Text := lines.flatMap ('\n' :: ·)

theorem joinLines_cons (line : Text) (lines : List Text) : joinLines (line :: lines) = line ++ moreLines lines := by
  induction lines generalizing line with
  | nil => simp [joinLines, moreLines]
  | cons next lines ih =>
    unfold joinLines at ih ⊢
    rw [List.intercalate_cons_cons, ih, List.append_assoc]
    rfl

theorem joinLines_append {lines : List Text} (h : lines ≠ []) (more : List Text) :
    joinLines (lines ++ more) = joinLines lines ++ moreLines more := by
  cases lines with
  | nil => exact absurd rfl h
  | cons line lines => rw [List.cons_append, joinLines_cons, joinLines_cons, moreLines, List.flatMap_append, List.append_assoc]; rfl

theorem openLines_joinLines (before : List Text) {lines : List Text} (h : lines ≠ []) :
    joinLines (before ++ lines) = openLines before ++ joinLines lines := by
  induction before with
  | nil => rfl
  | cons line before ih =>
    have hne : before ++ lines ≠ [] := fun hnil => h (List.append_eq_nil_iff.mp hnil).2
    rw [List.cons_append, joinLines, List.intercalate_cons_of_ne_nil hne]
    rw [joinLines] at ih
    rw [ih, openLines, openLines, List.flatMap_cons, List.append_assoc, List.append_assoc, List.append_assoc, joinLines]

theorem openLines_eq {lines : List Text} (h : lines ≠ []) : openLines lines = joinLines lines ++ ['\n'] := by
  have heq := openLines_joinLines lines (List.cons_ne_nil [] [])
  rw [joinLines_append h] at heq
  simpa [moreLines, joinLines] using heq.symm

theorem length_openLines (lines : List Text) : (openLines lines).length = (lines.map fun line => line.length + 1).sum := by
  simp [openLines, List.length_flatMap]

/-- No line has a line feed. -/
def Lines (lines : List Text) : Prop := ∀ line ∈ lines, '\n' ∉ line

theorem lines_splitOn (text : Text) : Lines (text.splitOn '\n') := fun _ => not_mem_of_mem_splitOn

theorem joinLines_splitOn (text : Text) : joinLines (text.splitOn '\n') = text := List.intercalate_splitOn '\n'

theorem splitOn_joinLines {lines : List Text} (h : Lines lines) (hne : lines ≠ []) : (joinLines lines).splitOn '\n' = lines :=
  List.splitOn_intercalate '\n' h hne

theorem joinLines_inj {a b : List Text} (ha : Lines a) (hb : Lines b) (hane : a ≠ []) (hbne : b ≠ []) (h : joinLines a = joinLines b) :
    a = b := by
  rw [← splitOn_joinLines ha hane, h, splitOn_joinLines hb hbne]

/-- A normalization of lines. -/
structure Trim (g : List Text → List Text) : Prop where
  length : ∀ lines, (g lines).length = lines.length
  lines : ∀ lines, Lines lines → Lines (g lines)

/-- A text of whole lines. -/
structure Whole (before after : Text) : Prop where
  start : before = [] ∨ ∃ text, before = text ++ ['\n']
  stop : after = [] ∨ ∃ text, after = '\n' :: text

theorem exists_openLines {before : Text} (h : before = [] ∨ ∃ text, before = text ++ ['\n']) :
    ∃ lines, Lines lines ∧ before = openLines lines := by
  rcases h with rfl | ⟨text, rfl⟩
  · exact ⟨[], fun _ h => absurd h List.not_mem_nil, rfl⟩
  · exact ⟨text.splitOn '\n', lines_splitOn text, by rw [openLines_eq (List.splitOn_ne_nil _ _), joinLines_splitOn]⟩

theorem exists_moreLines {after : Text} (h : after = [] ∨ ∃ text, after = '\n' :: text) :
    ∃ lines, Lines lines ∧ after = moreLines lines := by
  rcases h with rfl | ⟨text, rfl⟩
  · exact ⟨[], fun _ h => absurd h List.not_mem_nil, rfl⟩
  · refine ⟨text.splitOn '\n', lines_splitOn text, ?_⟩
    have heq := joinLines_cons [] (text.splitOn '\n')
    rw [joinLines, List.intercalate_cons_of_ne_nil (List.splitOn_ne_nil _ _)] at heq
    rw [List.nil_append, List.nil_append] at heq
    rw [← heq]
    exact congrArg ('\n' :: ·) (joinLines_splitOn text).symm

theorem whole_lines (before after : List Text) : Whole (openLines before) (moreLines after) := by
  constructor
  · cases before with
    | nil => exact Or.inl rfl
    | cons line before => exact Or.inr ⟨_, openLines_eq (List.cons_ne_nil line before)⟩
  · cases after with
    | nil => exact Or.inl rfl
    | cons line after => exact Or.inr ⟨_, rfl⟩

/-! ### Blocks of lines -/

theorem joinLines_block (before : List Text) {block : List Text} (h : block ≠ []) (after : List Text) :
    joinLines (before ++ (block ++ after)) = openLines before ++ (joinLines block ++ moreLines after) := by
  rw [openLines_joinLines before (fun hnil => h (List.append_eq_nil_iff.mp hnil).1), joinLines_append h]

theorem line_span_eq (before : List Text) {block : List Text} (h : block ≠ []) (after : List Text) :
    line_span (joinLines (before ++ (block ++ after))) (before ++ (block ++ after)) before.length block.length =
      ((openLines before).length, (openLines before).length + (joinLines block).length) := by
  have hstart : line_start (before ++ (block ++ after)) before.length = (openLines before).length := by
    rw [line_start, List.take_left, length_openLines]
  have hstop : line_start (before ++ (block ++ after)) (before.length + block.length) =
      (openLines before).length + (joinLines block).length + 1 := by
    rw [line_start, ← List.append_assoc, ← List.length_append, List.take_left, ← length_openLines, openLines, List.flatMap_append,
      List.length_append, ← openLines, ← openLines, openLines_eq h, List.length_append, Nat.add_assoc]
    rfl
  rw [line_span, hstart, hstop, joinLines_block before h, Nat.add_sub_cancel, Nat.min_eq_left]
  rw [List.length_append, List.length_append]
  omega

theorem mem_range_blocks {content : Text} {lines : List Text} {n : Nat} {p : Nat → Bool} {span : Span} :
    span ∈ blocks content lines n p ↔ ∃ i, i + n < lines.length + 1 ∧ p i = true ∧ line_span content lines i n = span := by
  simp only [blocks, List.mem_map, List.mem_filter, List.mem_range, and_assoc, Nat.lt_sub_iff_add_lt]

/-- The blocks that a normalization of lines makes equal to a pattern are the texts of whole
lines that it makes equal to it. -/
theorem mem_blocks {g : List Text → List Text} (hg : Trim g) {content : Text} {pattern_lines : List Text} (hlines : Lines pattern_lines)
    (hne : pattern_lines ≠ []) {span : Span} :
    span ∈ blocks content (content.splitOn '\n') pattern_lines.length (fun i =>
        joinLines (g (((content.splitOn '\n').drop i).take pattern_lines.length)) = joinLines (g pattern_lines)) ↔
      ∃ before text after, content = before ++ (text ++ after) ∧ Whole before after ∧
        joinLines (g (text.splitOn '\n')) = joinLines (g pattern_lines) ∧ span = (before.length, before.length + text.length) := by
  have hg_ne : ∀ {lines : List Text}, lines ≠ [] → g lines ≠ [] := fun h hnil =>
    h (List.length_eq_zero_iff.mp (by rw [← hg.length, hnil]; rfl))
  rw [mem_range_blocks]
  constructor
  · rintro ⟨i, hi, hp, rfl⟩
    have hpos := List.length_pos_iff.mpr hne
    have hcut : content.splitOn '\n' = (content.splitOn '\n').take i ++
        (((content.splitOn '\n').drop i).take pattern_lines.length ++ ((content.splitOn '\n').drop i).drop pattern_lines.length) := by
      rw [List.take_append_drop, List.take_append_drop]
    have hlength : ((content.splitOn '\n').take i).length = i := List.length_take_of_le (by omega)
    have hblock : (((content.splitOn '\n').drop i).take pattern_lines.length).length = pattern_lines.length :=
      List.length_take_of_le (by rw [List.length_drop]; omega)
    have hblock_ne : ((content.splitOn '\n').drop i).take pattern_lines.length ≠ [] :=
      List.ne_nil_of_length_pos (hblock.symm ▸ hpos)
    have hblock_lines : Lines (((content.splitOn '\n').drop i).take pattern_lines.length) := fun line hline =>
      lines_splitOn content line (List.mem_of_mem_drop (List.mem_of_mem_take hline))
    refine ⟨openLines ((content.splitOn '\n').take i), joinLines (((content.splitOn '\n').drop i).take pattern_lines.length),
      moreLines (((content.splitOn '\n').drop i).drop pattern_lines.length), ?_, whole_lines _ _, ?_, ?_⟩
    · rw [← joinLines_block _ hblock_ne, ← hcut, joinLines_splitOn]
    · rw [splitOn_joinLines hblock_lines hblock_ne]
      exact of_decide_eq_true hp
    · have hspan := line_span_eq ((content.splitOn '\n').take i) hblock_ne
        (((content.splitOn '\n').drop i).drop pattern_lines.length)
      rwa [← hcut, joinLines_splitOn, hlength, hblock] at hspan
  · rintro ⟨before, text, after, rfl, hwhole, hsame, rfl⟩
    obtain ⟨bl, hbl, rfl⟩ := exists_openLines hwhole.start
    obtain ⟨al, hal, rfl⟩ := exists_moreLines hwhole.stop
    have htext := List.splitOn_ne_nil '\n' text
    have hgs := joinLines_inj (hg.lines _ (lines_splitOn text)) (hg.lines _ hlines) (hg_ne htext) (hg_ne hne) hsame
    have hlength : (text.splitOn '\n').length = pattern_lines.length := by
      rw [← hg.length, hgs, hg.length]
    have hcontent : openLines bl ++ (text ++ moreLines al) = joinLines (bl ++ (text.splitOn '\n' ++ al)) := by
      rw [joinLines_block _ htext, joinLines_splitOn]
    have hall : Lines (bl ++ (text.splitOn '\n' ++ al)) := by
      intro line hline
      rcases List.mem_append.mp hline with h | h
      · exact hbl line h
      · exact (List.mem_append.mp h).elim (lines_splitOn text line) (hal line)
    have hsplit : (openLines bl ++ (text ++ moreLines al)).splitOn '\n' = bl ++ (text.splitOn '\n' ++ al) := by
      rw [hcontent, splitOn_joinLines hall]
      exact fun hnil => htext (List.append_eq_nil_iff.mp (List.append_eq_nil_iff.mp hnil).2).1
    refine ⟨bl.length, ?_, ?_, ?_⟩
    · rw [hsplit, List.length_append, List.length_append, hlength]
      omega
    · rw [hsplit, List.drop_left, ← hlength, List.take_left]
      exact decide_eq_true hsame
    · rw [hsplit, hcontent, ← hlength, line_span_eq bl htext, joinLines_splitOn]

theorem line_start_lt {lines : List Text} {i j : Nat} (hi : i < lines.length) (h : i < j) : line_start lines i < line_start lines j := by
  obtain ⟨d, rfl⟩ := Nat.exists_eq_add_of_lt h
  unfold line_start
  rw [show i + d + 1 = i + (d + 1) by omega, List.take_add, List.map_append, List.sum_append, List.drop_eq_getElem_cons hi,
    List.take_succ_cons, List.map_cons, List.sum_cons]
  omega

theorem blocks_ascending {content : Text} {lines : List Text} {n : Nat} {p : Nat → Bool} (hn : 0 < n) :
    (blocks content lines n p).Pairwise (fun a b => a.1 < b.1) := by
  unfold blocks
  rw [List.pairwise_map]
  refine List.Pairwise.imp_of_mem (fun {i j} _ hj hlt => ?_) ((List.pairwise_lt_range).filter p)
  have hj' := List.mem_range.mp (List.mem_filter.mp hj).1
  exact line_start_lt (by omega) hlt

/-! ### The matchers -/

theorem trim_map {f : Text → Text} (hf : ∀ line c, c ∈ f line → c ∈ line) : Trim (List.map f) where
  length _ := List.length_map f
  lines lines h line hline := by
    obtain ⟨original, horiginal, rfl⟩ := List.mem_map.mp hline
    exact fun hmem => h original horiginal (hf original '\n' hmem)

theorem mem_lstrip (line : Text) (c : Char) (h : c ∈ lstrip C line) : c ∈ line := (List.dropWhile_sublist C.space).mem h

theorem mem_strip (line : Text) (c : Char) (h : c ∈ strip C line) : c ∈ line := by
  unfold strip rstrip at h
  have hmem := (List.dropWhile_sublist C.space).mem (List.mem_reverse.mp h)
  exact mem_lstrip line c (List.mem_reverse.mp hmem)

theorem trim_boundary_trim : Trim (trim_boundary C) where
  length lines := by
    match lines with
    | [] => rfl
    | [_] => rfl
    | _ :: _ :: _ => simp [trim_boundary]
  lines lines h := by
    match lines with
    | [] => exact h
    | [first] =>
      intro line hline
      rw [List.mem_singleton.mp hline]
      exact fun hmem => h first (List.mem_singleton_self _) (mem_strip _ _ hmem)
    | first :: second :: rest =>
      obtain ⟨hfirst, hrest⟩ := List.forall_mem_cons.mp h
      intro line hline
      rcases List.mem_cons.mp hline with rfl | hline
      · exact fun hmem => hfirst (mem_strip _ _ hmem)
      · rcases List.mem_append.mp hline with hline | hline
        · exact hrest line ((List.dropLast_sublist _).mem hline)
        · rw [List.mem_singleton.mp hline]
          rw [List.getLastD_eq_getLast?, List.getLast?_eq_some_getLast (List.cons_ne_nil second rest)]
          exact fun hmem => hrest _ (List.getLast_mem _) (mem_strip _ _ hmem)

/-- What a structural matcher makes of a text of the content. -/
def Strategy.of_text (C : CharClass) : Strategy → Text → Text
  | line_trimmed, text => joinLines ((text.splitOn '\n').map (strip C))
  | whitespace_normalized, text => normalize text
  | indentation_flexible, text => joinLines ((text.splitOn '\n').map (lstrip C))
  | trimmed_boundary, text => joinLines (trim_boundary C (text.splitOn '\n'))
  | _, text => text

/-- What it makes of the pattern. -/
def Strategy.of_pattern (C : CharClass) : Strategy → Text → Text
  | escape_normalized, pattern => unescape pattern
  | strategy, pattern => strategy.of_text C pattern

/-- Where it looks: at whole lines, or not within a run of blanks. -/
def Strategy.Edges (before text after : Text) : Strategy → Prop
  | line_trimmed | indentation_flexible | trimmed_boundary => Whole before after
  | whitespace_normalized => Uncut false before text ∧ Uncut false text after
  | _ => True

/-- It has nothing to look for in a pattern without escapes. -/
def Strategy.Tries (pattern : Text) : Strategy → Prop
  | escape_normalized => unescape pattern ≠ pattern
  | _ => True

/-- A text of the content that a matcher takes for the pattern. -/
structure Strategy.Occurs (C : CharClass) (strategy : Strategy) (content pattern before text after : Text) : Prop where
  content_eq : content = before ++ (text ++ after)
  tries : strategy.Tries pattern
  edges : strategy.Edges before text after
  same : strategy.of_text C text = strategy.of_pattern C pattern

theorem mem_strategy_exact {content pattern : Text} {span : Span} : span ∈ strategy_exact content pattern ↔
    ∃ before after, content = before ++ (pattern ++ after) ∧ span = (before.length, before.length + pattern.length) := by
  unfold strategy_exact
  rw [mem_occurrences]
  simp only [Nat.zero_add]

theorem mem_line_trimmed {f : Text → Text} (hf : ∀ line c, c ∈ f line → c ∈ line) {content pattern : Text} {span : Span} :
    span ∈ find_normalized_matches content (content.splitOn '\n') ((content.splitOn '\n').map f) (joinLines ((pattern.splitOn '\n').map f)) ↔
      ∃ before text after, content = before ++ (text ++ after) ∧ Whole before after ∧
        joinLines ((text.splitOn '\n').map f) = joinLines ((pattern.splitOn '\n').map f) ∧
          span = (before.length, before.length + text.length) := by
  have hne : (pattern.splitOn '\n').map f ≠ [] := fun hnil => List.splitOn_ne_nil _ _ (List.map_eq_nil_iff.mp hnil)
  rw [find_normalized_matches, splitOn_joinLines ((trim_map hf).lines _ (lines_splitOn pattern)) hne, List.length_map]
  simp only [← List.map_drop, ← List.map_take]
  exact mem_blocks (trim_map hf) (lines_splitOn pattern) (List.splitOn_ne_nil _ _)

theorem mem_trimmed_boundary {content pattern : Text} {span : Span} : span ∈ strategy_trimmed_boundary C content pattern ↔
    ∃ before text after, content = before ++ (text ++ after) ∧ Whole before after ∧
      joinLines (trim_boundary C (text.splitOn '\n')) = joinLines (trim_boundary C (pattern.splitOn '\n')) ∧
        span = (before.length, before.length + text.length) := by
  unfold strategy_trimmed_boundary
  simp only [trim_boundary_trim.length]
  exact mem_blocks trim_boundary_trim (lines_splitOn pattern) (List.splitOn_ne_nil _ _)

/-- The span that the matcher over blanks reports for a text. -/
def blank_span (before text after : Text) : Span := (solid false before, before.length + text.length + (after.takeWhile blank).length)

theorem ne_nil_of_normalize {text pattern : Text} (hpattern : pattern ≠ []) (h : normalize text = normalize pattern) : text ≠ [] := by
  rintro rfl
  have hpos := normalize_pos hpattern
  rw [← h] at hpos
  exact absurd hpos (by decide)

/-- What is found in the collapsed text is a text whose edges cut no run of blanks. -/
theorem exists_collapsed {content pattern : Text} (hpattern : pattern ≠ []) {found : Span}
    (hfound : found ∈ strategy_exact (normalize content) (normalize pattern)) :
    ∃ before text after, content = before ++ (text ++ after) ∧ (Uncut false before text ∧ Uncut false text after) ∧
      normalize text = normalize pattern ∧ found = ((normalize before).length, (normalize before).length + (normalize text).length) := by
  obtain ⟨u, v, hsplit, rfl⟩ := mem_strategy_exact.mp hfound
  obtain ⟨before, y, rfl, rfl, hy, hbefore⟩ := exists_split hsplit
  obtain ⟨text, after, rfl, htext, -, hafter⟩ := exists_split hy
  have hsame : normalize text = normalize pattern := htext
  have hcut : Uncut false before text := by
    cases text with
    | nil => exact absurd rfl (ne_nil_of_normalize hpattern hsame)
    | cons c text => exact hbefore
  exact ⟨before, text, after, rfl, ⟨hcut, hafter⟩, hsame, by rw [hsame]; rfl⟩

theorem mem_whitespace_normalized {content pattern : Text} (hpattern : pattern ≠ []) {span : Span} :
    span ∈ strategy_whitespace_normalized content pattern ↔ ∃ before text after, content = before ++ (text ++ after) ∧
      (Uncut false before text ∧ Uncut false text after) ∧ normalize text = normalize pattern ∧ span = blank_span before text after := by
  unfold strategy_whitespace_normalized map_normalized_positions
  rw [List.mem_map]
  constructor
  · rintro ⟨found, hfound, rfl⟩
    obtain ⟨before, text, after, rfl, ⟨hbefore, hafter⟩, hsame, rfl⟩ := exists_collapsed hpattern hfound
    exact ⟨before, text, after, rfl, ⟨hbefore, hafter⟩, hsame, mapped_span (ne_nil_of_normalize hpattern hsame) hbefore hafter⟩
  · rintro ⟨before, text, after, rfl, ⟨hbefore, hafter⟩, hsame, rfl⟩
    have htext := ne_nil_of_normalize hpattern hsame
    refine ⟨_, mem_strategy_exact.mpr ⟨normalize before, normalize after, ?_, ?_⟩, mapped_span htext hbefore hafter⟩
    · rw [normalize_split htext hbefore hafter, hsame]
    · rw [hsame]

section Spans

variable (M : Measure) (cfg : FuzzyConfig) {content pattern : Text} {span : Span}

/-- The spans of a structural matcher, but the one over blanks. -/
theorem mem_spans {strategy : Strategy} (h : strategy.structural = true) (hblank : strategy ≠ .whitespace_normalized) :
    span ∈ strategy.spans M C cfg content pattern ↔
      ∃ before text after, strategy.Occurs C content pattern before text after ∧ span = (before.length, before.length + text.length) := by
  have hlines {g : List Text → List Text} (hedges : ∀ before text after, strategy.Edges before text after ↔ Whole before after)
      (htries : strategy.Tries pattern) (htext : ∀ text, strategy.of_text C text = joinLines (g (text.splitOn '\n')))
      (hpattern : strategy.of_pattern C pattern = joinLines (g (pattern.splitOn '\n'))) :
      (∃ before text after, content = before ++ (text ++ after) ∧ Whole before after ∧
        joinLines (g (text.splitOn '\n')) = joinLines (g (pattern.splitOn '\n')) ∧ span = (before.length, before.length + text.length)) ↔
      ∃ before text after, strategy.Occurs C content pattern before text after ∧ span = (before.length, before.length + text.length) := by
    constructor
    · rintro ⟨before, text, after, hcontent, hwhole, hsame, hspan⟩
      exact ⟨before, text, after, ⟨hcontent, htries, (hedges ..).mpr hwhole, by rw [htext, hpattern, hsame]⟩, hspan⟩
    · rintro ⟨before, text, after, hoccurs, hspan⟩
      exact ⟨before, text, after, hoccurs.content_eq, (hedges ..).mp hoccurs.edges, by rw [← htext, ← hpattern, hoccurs.same], hspan⟩
  cases strategy with
  | exact =>
    constructor
    · intro hmem
      obtain ⟨before, after, hcontent, hspan⟩ := mem_strategy_exact.mp hmem
      exact ⟨before, pattern, after, ⟨hcontent, trivial, trivial, rfl⟩, hspan⟩
    · rintro ⟨before, text, after, ⟨hcontent, -, -, rfl⟩, hspan⟩
      exact mem_strategy_exact.mpr ⟨before, after, hcontent, hspan⟩
  | line_trimmed => exact (mem_line_trimmed mem_strip).trans (hlines (fun _ _ _ => Iff.rfl) trivial (fun _ => rfl) rfl)
  | whitespace_normalized => exact absurd rfl hblank
  | indentation_flexible => exact (mem_line_trimmed mem_lstrip).trans (hlines (fun _ _ _ => Iff.rfl) trivial (fun _ => rfl) rfl)
  | escape_normalized =>
    show span ∈ strategy_escape_normalized content pattern ↔ _
    unfold strategy_escape_normalized
    constructor
    · intro hmem
      split at hmem
      · cases hmem
      · rename_i htries
        obtain ⟨before, after, hcontent, hspan⟩ := mem_strategy_exact.mp hmem
        exact ⟨before, unescape pattern, after, ⟨hcontent, htries, trivial, rfl⟩, hspan⟩
    · rintro ⟨before, text, after, ⟨hcontent, htries, -, hsame⟩, hspan⟩
      rw [if_neg htries]
      have htext : text = unescape pattern := hsame
      rw [htext] at hcontent hspan
      exact mem_strategy_exact.mpr ⟨before, after, hcontent, hspan⟩
  | trimmed_boundary => exact mem_trimmed_boundary.trans (hlines (fun _ _ _ => Iff.rfl) trivial (fun _ => rfl) rfl)
  | block_anchor => cases h
  | context_aware => cases h

theorem mem_blank_spans (hpattern : pattern ≠ []) : span ∈ Strategy.whitespace_normalized.spans M C cfg content pattern ↔
    ∃ before text after, Strategy.whitespace_normalized.Occurs C content pattern before text after ∧ span = blank_span before text after := by
  refine (mem_whitespace_normalized hpattern).trans ⟨?_, ?_⟩
  · rintro ⟨before, text, after, hcontent, hedges, hsame, hspan⟩
    exact ⟨before, text, after, ⟨hcontent, trivial, hedges, hsame⟩, hspan⟩
  · rintro ⟨before, text, after, hoccurs, hspan⟩
    exact ⟨before, text, after, hoccurs.content_eq, hoccurs.edges, hoccurs.same, hspan⟩

theorem countP_lt_countP {positions : List Nat} {v w : Nat} (hv : v ∈ positions) (h : v < w) :
    positions.countP (· < v) < positions.countP (· < w) := by
  induction positions with
  | nil => cases hv
  | cons a positions ih =>
    have hmono : positions.countP (· < v) ≤ positions.countP (· < w) :=
      List.countP_mono_left fun b _ hb => decide_eq_true (Nat.lt_trans (of_decide_eq_true hb) h)
    rcases List.mem_cons.mp hv with rfl | hmem
    · rw [List.countP_cons_of_neg (by simp), List.countP_cons_of_pos (by simpa using h)]
      exact Nat.lt_succ_of_le hmono
    · have hlt := ih hmem
      rw [List.countP_cons, List.countP_cons]
      by_cases ha : a < v
      · rw [if_pos (decide_eq_true ha), if_pos (decide_eq_true (Nat.lt_trans ha h))]
        omega
      · rw [if_neg (by simpa using ha)]
        omega

theorem Strategy.Occurs.ne_nil {before text after : Text} (hpattern : pattern ≠ [])
    (h : Strategy.whitespace_normalized.Occurs C content pattern before text after) : text ≠ [] :=
  ne_nil_of_normalize hpattern h.same

/-- The later of two texts in the collapsed text begins later. -/
theorem solid_lt {before text after before' text' after' : Text} (hpattern : pattern ≠ [])
    (h : Strategy.whitespace_normalized.Occurs C content pattern before text after)
    (h' : Strategy.whitespace_normalized.Occurs C content pattern before' text' after')
    (hlt : (normalize before).length < (normalize before').length) : solid false before < solid false before' := by
  have hne := h.ne_nil hpattern
  have hne' := h'.ne_nil hpattern
  have hmem := mem_positions hne h.edges.1 h.edges.2 (Nat.le_refl _) (Nat.lt_add_of_pos_right (normalize_pos hne))
  have hcount := countP_lt_countP hmem hlt
  rw [countP_start hne h.edges.1 h.edges.2, ← h.content_eq, h'.content_eq, countP_start hne' h'.edges.1 h'.edges.2] at hcount
  exact hcount

theorem spans_ascending {strategy : Strategy} (h : strategy.structural = true) (hpattern : pattern ≠ []) :
    (strategy.spans M C cfg content pattern).Pairwise (fun a b => a.1 < b.1) := by
  have hpos {text : Text} : 0 < (text.splitOn '\n').length := List.length_pos_iff.mpr (List.splitOn_ne_nil _ _)
  cases strategy with
  | exact => exact occurrences_ascending ..
  | line_trimmed => exact blocks_ascending hpos
  | whitespace_normalized =>
    have hascending := occurrences_ascending (normalize pattern) 0 (normalize content)
    refine List.pairwise_map.mpr (hascending.imp_of_mem fun {a b} ha hb hlt => ?_)
    have hstart {found : Span} {before text after : Text}
        (h : Strategy.whitespace_normalized.Occurs C content pattern before text after)
        (hfound : found = ((normalize before).length, (normalize before).length + (normalize text).length)) :
        (map_normalized_position content (orig_to_norm content (normalize content) 0) found).1 = solid false before := by
      rw [hfound, h.content_eq, mapped_span (h.ne_nil hpattern) h.edges.1 h.edges.2]
    obtain ⟨before, text, after, hcontent, hedges, hsame, hspan⟩ := exists_collapsed hpattern ha
    obtain ⟨before', text', after', hcontent', hedges', hsame', hspan'⟩ := exists_collapsed hpattern hb
    have h : Strategy.whitespace_normalized.Occurs C content pattern before text after := ⟨hcontent, trivial, hedges, hsame⟩
    have h' : Strategy.whitespace_normalized.Occurs C content pattern before' text' after' := ⟨hcontent', trivial, hedges', hsame'⟩
    rw [hstart h hspan, hstart h' hspan']
    rw [hspan, hspan'] at hlt
    exact solid_lt hpattern h h' hlt
  | indentation_flexible => exact blocks_ascending hpos
  | escape_normalized =>
    show (strategy_escape_normalized content pattern).Pairwise _
    unfold strategy_escape_normalized
    split
    · exact List.Pairwise.nil
    · exact occurrences_ascending ..
  | trimmed_boundary =>
    refine blocks_ascending ?_
    rw [trim_boundary_trim.length]
    exact hpos
  | block_anchor => cases h
  | context_aware => cases h

end Spans

end LeanFlow.Patches
