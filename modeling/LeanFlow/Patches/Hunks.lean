import LeanFlow.Patches.Faithful
import LeanFlow.Patches.V4A

/-! Applying the hunks of an update.

A hunk is looked for within the region of its anchor, or in the whole content, first as it
is and then by the chain of matchers. An update writes after its last hunk. A hunk whose
context and removed lines make no text is taken for applied (`hunk_placed_iff`). -/
namespace LeanFlow.Patches
open General Source

/-! ### Hunks -/

def hunk_search_replace (hunk : Hunk) : Text × Text :=
  (joinLines ((hunk.lines.filter (·.kind ≠ .added)).map HunkLine.content),
    joinLines ((hunk.lines.filter (·.kind ≠ .removed)).map HunkLine.content))

section Apply

variable (M : Measure) (C : CharClass)

/-- `^\s*(?:async\s+def\b|def\b|class\b|theorem\b|…)`. -/
def decl_anchor : Pattern :=
  .all [Pattern.start, .star (Pattern.space C),
    .any (.all [Pattern.text "async", .plus (Pattern.space C), Pattern.text "def"]) [Pattern.text "def", Pattern.text "class",
      Pattern.text "theorem", Pattern.text "lemma", Pattern.text "example", Pattern.text "structure", Pattern.text "inductive",
      Pattern.text "instance"],
    Pattern.boundary C]

def declares (line : Text) : Bool := ((decl_anchor C).matchStart line).isSome

def hunk_anchor (hunk : Hunk) : Option Text :=
  match hunk.context_hint.filter (· ≠ []) with
  | some hint => some hint
  | none => (hunk.lines.find? fun line => line.kind = .context && declares C line.content).map fun line => strip C line.content

/-- From the line of the anchor to the next declaration that is not indented. -/
def anchor_region (content anchor : Text) : Option Span :=
  let lines := content.splitOn '\n'
  let anchor_norm := strip C anchor
  let anchor_line := (lines.findIdx? fun line => strip C line = anchor_norm) <|>
    lines.findIdx? fun line => anchor_norm ≠ [] && decide (anchor_norm <:+: line)
  anchor_line.map fun anchor_line =>
    let later := (lines.drop (anchor_line + 1)).findIdx? fun line => declares C line && !line.head?.any C.space
    let end_line := (later.map (anchor_line + 1 + ·)).getD lines.length
    (line_start lines anchor_line, min (line_start lines end_line) content.length)

structure Applied where
  content : Text
  strategy : Option Strategy := none
  similarity : Option Float := none

/-- The content with the one span of an exact hit replaced. -/
def Applied.exact (content replacement : Text) (span : Span) : Applied :=
  { content := content.take span.1 ++ replacement ++ content.drop span.2, strategy := some .exact, similarity := some 1.0 }

def too_many (hits : Nat) (how : String) : Text :=
  s!"Found {hits} exact matches for the hunk; add {how} @@ anchor @@ or more context lines to make it unique.".toList

/-- An implicit anchor may stand behind the lines before it: a hit in the whole content counts. -/
def apply_implicit (content search_pattern replacement : Text) : Option (Except Text Applied) :=
  match strategy_exact content search_pattern with
  | [] => none
  | [span] => some (.ok (.exact content replacement span))
  | hits => some (.error (too_many hits.length "an explicit"))

/-- The chain of matchers, and what is reported where it finds none or more than one. -/
def apply_fuzzy (content search_pattern replacement : Text) (config : FuzzyConfig) (report : Option Text → Text) : Except Text Applied :=
  let fm := fuzzy_find_and_replace_ex M C content search_pattern replacement false config
  if 0 < fm.count && fm.error.isNone then .ok { content := fm.content, strategy := fm.strategy, similarity := fm.similarity }
  else .error (report fm.error)

/-- The anchor is authoritative: within its region, exactly first. -/
def apply_anchored (content : Text) (hunk : Hunk) (config : FuzzyConfig) (region : Span) : Except Text Applied :=
  let (search_pattern, replacement) := hunk_search_replace hunk
  let window := (content.take region.2).drop region.1
  let within (applied : Applied) : Applied := { applied with content := content.take region.1 ++ applied.content ++ content.drop region.2 }
  match strategy_exact window search_pattern with
  | [span] => .ok (within (.exact window replacement span))
  | hits =>
    let implicit := if hunk.context_hint.all (· = []) && hits.isEmpty then apply_implicit content search_pattern replacement else none
    implicit.getD <| (apply_fuzzy M C window search_pattern replacement config fun error =>
      "Could not apply hunk within its `@@` anchor region: ".toList ++ error.getD "no match".toList).map within

def apply_unanchored (content : Text) (hunk : Hunk) (config : FuzzyConfig) : Except Text Applied :=
  let (search_pattern, replacement) := hunk_search_replace hunk
  match strategy_exact content search_pattern with
  | [span] => .ok (.exact content replacement span)
  | [] => apply_fuzzy M C content search_pattern replacement config fun error => "Could not apply hunk: ".toList ++ error.getD "None".toList
  | hits => .error (too_many hits.length "a distinguishing")

def apply_hunk (content : Text) (hunk : Hunk) (config : FuzzyConfig) : Except Text Applied :=
  if (hunk_search_replace hunk).1 = [] then .ok { content := content }
  else
    match (hunk_anchor C hunk).bind (anchor_region C content) with
    | some region => apply_anchored M C content hunk config region
    | none => apply_unanchored M C content hunk config

/-! ### Updates -/

/-- The hunks one after the other, with the least confident strategy. -/
def apply_hunks (config : FuzzyConfig) : Applied → List Hunk → Except Text Applied
  | state, [] => .ok state
  | state, hunk :: hunks =>
    match apply_hunk M C state.content hunk config with
    | .error error => .error error
    | .ok patched =>
      let worse := patched.strategy.isSome &&
        state.similarity.all fun worst => patched.similarity.any fun similarity => decide (similarity < worst)
      apply_hunks config (if worse then patched else { state with content := patched.content }) hunks

structure Updated where
  /-- What `write_file` was called with. -/
  written : Option Text := none
  result : Except Text (Text × Option Strategy × Option Float)

/-- The file's content is read whole; `write_file` may report an error. -/
def apply_update (op : PatchOperation) (current_content : Option Text) (write_file : Text → Option Text)
    (unified_diff : Text → Text → Text) (strict : Bool) : Updated :=
  match current_content with
  | none => { result := .error ("Cannot read file: ".toList ++ op.file_path) }
  | some current_content =>
    match apply_hunks M C (if strict then strict_config else default_config) { content := current_content } op.hunks with
    | .error error => { result := .error error }
    | .ok patched =>
      { written := some patched.content
        result := match write_file patched.content with
          | some error => .error error
          | none => .ok (unified_diff current_content patched.content, patched.strategy, patched.similarity) }

end Apply

/-! ### Spans in the content -/

theorem line_start_le {content : Text} {i : Nat} (hi : i < (content.splitOn '\n').length) :
    line_start (content.splitOn '\n') i ≤ content.length := by
  have hrest : (content.splitOn '\n').drop i ≠ [] := fun hnil => absurd (List.drop_eq_nil_iff.mp hnil) (Nat.not_le.mpr hi)
  have hcontent : content = openLines ((content.splitOn '\n').take i) ++ joinLines ((content.splitOn '\n').drop i) := by
    rw [← openLines_joinLines _ hrest, List.take_append_drop, joinLines_splitOn]
  have hlength := congrArg List.length hcontent
  rw [List.length_append, length_openLines] at hlength
  rw [line_start]
  omega

theorem line_start_mono (lines : List Text) {i j : Nat} (h : i ≤ j) : line_start lines i ≤ line_start lines j := by
  obtain ⟨d, rfl⟩ := Nat.exists_eq_add_of_le h
  unfold line_start
  rw [List.take_add, List.map_append, List.sum_append]
  exact Nat.le_add_right _ _

theorem line_span_range {content : Text} {i n : Nat} (hn : 0 < n) (hi : i + n < (content.splitOn '\n').length + 1) :
    (line_span content (content.splitOn '\n') i n).1 ≤ (line_span content (content.splitOn '\n') i n).2 ∧
      (line_span content (content.splitOn '\n') i n).2 ≤ content.length := by
  have hlt : line_start (content.splitOn '\n') i < line_start (content.splitOn '\n') (i + n) :=
    line_start_lt (by omega) (by omega)
  have hle := @line_start_le content i (by omega)
  exact ⟨le_min (Nat.le_sub_one_of_lt hlt) hle, Nat.min_le_right _ _⟩

theorem length_splitOn (text : Text) : (text.splitOn '\n').length = text.count '\n' + 1 := by
  induction text with
  | nil => rfl
  | cons c text ih =>
    rw [List.splitOn_cons_eq_if_modifyHead]
    split
    · rename_i hc
      rw [List.length_cons, ih, beq_iff_eq.mp hc, List.count_cons_self]
    · rename_i hc
      rw [List.length_modifyHead, ih, List.count_cons_of_ne (by simpa using hc)]

theorem count_unicode_normalize (text : Text) : (unicode_normalize text).count '\n' = text.count '\n' := by
  have hentries : ∀ entry ∈ unicode_map, entry.1 ≠ '\n' ∧ entry.2.count '\n' = 0 := by decide
  unfold unicode_normalize
  generalize unicode_map = entries at hentries
  induction entries generalizing text with
  | nil => rfl
  | cons entry entries ih =>
    obtain ⟨hentry, hrest⟩ := List.forall_mem_cons.mp hentries
    rw [List.foldl_cons, ih _ hrest]
    simp only
    induction text with
    | nil => rfl
    | cons c text iht =>
      rw [List.flatMap_cons, List.count_append, iht, List.count_cons]
      by_cases hc : c = entry.1
      · rw [if_pos hc, hentry.2, if_neg (by simpa [hc] using hentry.1)]
        omega
      · rw [if_neg hc, List.count_cons, List.count_nil]
        omega

/-- Every span lies in the content. -/
theorem span_range {M : Measure} {C : CharClass} {cfg : FuzzyConfig} {content pattern : Text} (hpattern : pattern ≠ []) {strategy : Strategy}
    {span : Span} (hspan : span ∈ strategy.spans M C cfg content pattern) : span.1 ≤ span.2 ∧ span.2 ≤ content.length := by
  have hpos {text : Text} : 0 < (text.splitOn '\n').length := List.length_pos_iff.mpr (List.splitOn_ne_nil _ _)
  have hstructural (h : strategy.structural = true) : span.1 ≤ span.2 ∧ span.2 ≤ content.length := by
    obtain ⟨before, text, after, hoccurs, rfl⟩ := exists_occurs M cfg hpattern h hspan
    have hwhile := (List.takeWhile_prefix (l := after) blank).length_le
    have hsolid := solid_le false before
    rw [hoccurs.content_eq, List.length_append, List.length_append]
    split
    · show solid false before ≤ before.length + text.length + _ ∧ before.length + text.length + _ ≤ _
      omega
    · show before.length ≤ before.length + text.length ∧ before.length + text.length ≤ _
      omega
  cases strategy with
  | block_anchor =>
    change span ∈ strategy_block_anchor M C cfg content pattern at hspan
    unfold strategy_block_anchor at hspan
    simp only at hspan
    split at hspan
    · cases hspan
    · obtain ⟨i, hi, rfl⟩ := List.mem_map.mp hspan
      have hrange := List.mem_range.mp (List.mem_filter.mp (List.mem_filter.mp hi).1).1
      refine line_span_range hpos ?_
      rw [length_splitOn, count_unicode_normalize, ← length_splitOn] at hrange
      omega
  | context_aware =>
    obtain ⟨i, hi, -, rfl⟩ := mem_range_blocks.mp hspan
    exact line_span_range hpos hi
  | exact => exact hstructural rfl
  | line_trimmed => exact hstructural rfl
  | whitespace_normalized => exact hstructural rfl
  | indentation_flexible => exact hstructural rfl
  | escape_normalized => exact hstructural rfl
  | trimmed_boundary => exact hstructural rfl

/-! ### Placed hunks -/

/-- One span of the content is replaced; where it must, it is the text that was looked for. -/
def Edited (content search_pattern replacement : Text) (must : Prop) (result : Text) : Prop :=
  ∃ before span after, content = before ++ (span ++ after) ∧ result = before ++ (replacement ++ after) ∧ (must → span = search_pattern)

/-- The hunk's context and added lines stand for one span of the content, in the region of an
explicit anchor; where the hit is exact, for its context and removed lines. -/
def Placed (C : CharClass) (content : Text) (hunk : Hunk) (config : FuzzyConfig) (result : Text) (strategy : Option Strategy) : Prop :=
  ∃ before span after, content = before ++ (span ++ after) ∧ result = before ++ ((hunk_search_replace hunk).2 ++ after) ∧
    (∀ hint start stop, hunk.context_hint = some hint → hint ≠ [] → anchor_region C content hint = some (start, stop) →
      start ≤ before.length ∧ before.length + span.length ≤ stop) ∧
    (config.allow_structural = false ∨ strategy = some .exact → span = (hunk_search_replace hunk).1)

section Placing

variable {M : Measure} {C : CharClass} {content search_pattern replacement : Text} {config : FuzzyConfig}

theorem map_eq_ok {α β : Type} {f : α → β} {x : Except Text α} {b : β} (h : x.map f = .ok b) : ∃ a, x = .ok a ∧ f a = b := by
  cases x with
  | error error => cases h
  | ok a => exact ⟨a, rfl, Except.ok.inj h⟩

theorem exact_edited {span : Span} (h : span ∈ strategy_exact content search_pattern) (must : Prop) :
    Edited content search_pattern replacement must (Applied.exact content replacement span).content := by
  obtain ⟨before, after, rfl, rfl⟩ := mem_strategy_exact.mp h
  refine ⟨before, search_pattern, after, rfl, ?_, fun _ => rfl⟩
  simp only [Applied.exact]
  rw [List.take_left, ← List.append_assoc before search_pattern, ← List.length_append, List.drop_left, List.append_assoc]

theorem span_edited {span : Span} (h : span.1 ≤ span.2 ∧ span.2 ≤ content.length) {must : Prop} (hnot : ¬must) :
    Edited content search_pattern replacement must (content.take span.1 ++ replacement ++ content.drop span.2) := by
  refine ⟨content.take span.1, span.text content, content.drop span.2, ?_, List.append_assoc .., fun hmust => absurd hmust hnot⟩
  have hsplit : content.take span.1 ++ span.text content = content.take span.2 := by
    have heq := List.take_append_drop span.1 (content.take span.2)
    rwa [List.take_take, Nat.min_eq_left h.1] at heq
  rw [← List.append_assoc, hsplit, List.take_append_drop]

/-- What the chain of matchers replaces is one span. -/
theorem fuzzy_edited (hsearch : search_pattern ≠ [])
    (hcount : 0 < (fuzzy_find_and_replace_ex M C content search_pattern replacement false config).count)
    (herror : (fuzzy_find_and_replace_ex M C content search_pattern replacement false config).error = none) :
    Edited content search_pattern replacement
      (config.allow_structural = false ∨
        (fuzzy_find_and_replace_ex M C content search_pattern replacement false config).strategy = some .exact)
      (fuzzy_find_and_replace_ex M C content search_pattern replacement false config).content := by
  revert hcount herror
  rw [fuzzy_find_and_replace_ex, if_neg hsearch]
  split
  · exact fun hcount => absurd hcount (Nat.lt_irrefl 0)
  · split
    · rename_i strategy hfind
      simp only
      split
      · exact fun hcount => absurd hcount (Nat.lt_irrefl 0)
      · rename_i hone
        intro _ _
        have hspans := List.find?_some hfind
        have hone' : ∃ span, strategy.spans M C config content search_pattern = [span] := by
          cases hlist : strategy.spans M C config content search_pattern with
          | nil =>
            rw [hlist] at hspans
            cases hspans
          | cons span spans =>
            cases spans with
            | nil => exact ⟨span, rfl⟩
            | cons other spans =>
              rw [hlist] at hone
              simp at hone
        obtain ⟨span, hlist⟩ := hone'
        have hmem : span ∈ strategy.spans M C config content search_pattern := hlist ▸ List.mem_singleton_self span
        have hcontent : apply_replacements content (strategy.spans M C config content search_pattern) replacement =
            content.take span.1 ++ replacement ++ content.drop span.2 := by
          rw [hlist, apply_replacements_eq (List.pairwise_singleton ..)]
          rfl
        simp only [hcontent]
        by_cases hexact : strategy = .exact
        · subst hexact
          exact exact_edited hmem _
        · refine span_edited (span_range hsearch hmem) fun hmust => ?_
          rcases hmust with hstrict | hstrategy
          · have hin := List.mem_of_find?_eq_some hfind
            rw [FuzzyConfig.strategies, hstrict] at hin
            simp at hin
            exact hexact hin
          · exact hexact (Option.some.inj hstrategy)
    · exact fun hcount => absurd hcount (Nat.lt_irrefl 0)

theorem anchor_region_range {anchor : Text} {start stop : Nat} (h : anchor_region C content anchor = some (start, stop)) :
    start ≤ stop ∧ stop ≤ content.length := by
  obtain ⟨anchor_line, hline, heq⟩ := Option.map_eq_some_iff.mp h
  obtain ⟨rfl, rfl⟩ := Prod.ext_iff.mp heq
  have hlt : anchor_line < (content.splitOn '\n').length := by
    cases hfound : (content.splitOn '\n').findIdx? fun line => strip C line = strip C anchor with
    | some i =>
      rw [hfound] at hline
      obtain rfl : i = anchor_line := Option.some.inj hline
      exact (List.findIdx?_eq_some_iff_getElem.mp hfound).1
    | none =>
      rw [hfound] at hline
      exact (List.findIdx?_eq_some_iff_getElem.mp hline).1
  refine ⟨le_min (line_start_mono _ ?_) (line_start_le hlt), Nat.min_le_right _ _⟩
  cases hlater : ((content.splitOn '\n').drop (anchor_line + 1)).findIdx? fun line => declares C line && !line.head?.any C.space with
  | none => exact Nat.le_of_lt hlt
  | some j =>
    show anchor_line ≤ anchor_line + 1 + j
    omega

/-- An edit of the region between two positions is an edit of the content within it. -/
theorem window_edited {start stop : Nat} (hrange : start ≤ stop ∧ stop ≤ content.length) {must : Prop} {result : Text}
    (h : Edited ((content.take stop).drop start) search_pattern replacement must result) :
    ∃ before span after, content = before ++ (span ++ after) ∧
      content.take start ++ result ++ content.drop stop = before ++ (replacement ++ after) ∧
      (start ≤ before.length ∧ before.length + span.length ≤ stop) ∧ (must → span = search_pattern) := by
  obtain ⟨before, span, after, hwindow, rfl, hmust⟩ := h
  have hlength : (content.take start).length = start := List.length_take_of_le (by omega)
  have hcontent : content = content.take start ++ before ++ (span ++ (after ++ content.drop stop)) := by
    have htake : content.take start ++ (before ++ (span ++ after)) = content.take stop := by
      rw [← hwindow]
      have heq := List.take_append_drop start (content.take stop)
      rwa [List.take_take, Nat.min_eq_left hrange.1] at heq
    rw [← List.append_assoc span after, List.append_assoc, ← List.append_assoc before, ← List.append_assoc (content.take start), htake,
      List.take_append_drop]
  refine ⟨content.take start ++ before, span, after ++ content.drop stop, hcontent, ?_, ?_, hmust⟩
  · simp only [List.append_assoc]
  · have hsizes := congrArg List.length hwindow
    rw [List.length_drop, List.length_take_of_le hrange.2, List.length_append, List.length_append] at hsizes
    rw [List.length_append, hlength]
    omega

theorem edited_placed {hunk : Hunk} {result : Text} {strategy : Option Strategy}
    (hwhole : ∀ hint, hunk.context_hint = some hint → hint ≠ [] → anchor_region C content hint = none)
    (h : Edited content (hunk_search_replace hunk).1 (hunk_search_replace hunk).2
      (config.allow_structural = false ∨ strategy = some .exact) result) : Placed C content hunk config result strategy := by
  obtain ⟨before, span, after, hcontent, hresult, hmust⟩ := h
  refine ⟨before, span, after, hcontent, hresult, fun hint start stop hhint hne hregion => ?_, hmust⟩
  rw [hwhole hint hhint hne] at hregion
  cases hregion

theorem window_placed {hunk : Hunk} {start stop : Nat} {result : Text} {strategy : Option Strategy}
    (hregion : (hunk_anchor C hunk).bind (anchor_region C content) = some (start, stop))
    (h : Edited ((content.take stop).drop start) (hunk_search_replace hunk).1 (hunk_search_replace hunk).2
      (config.allow_structural = false ∨ strategy = some .exact) result) :
    Placed C content hunk config (content.take start ++ result ++ content.drop stop) strategy := by
  obtain ⟨anchor, hanchor, hfound⟩ := Option.bind_eq_some_iff.mp hregion
  obtain ⟨before, span, after, hcontent, hresult, hbounds, hmust⟩ := window_edited (anchor_region_range hfound) h
  refine ⟨before, span, after, hcontent, hresult, fun hint first last hhint hne hsame => ?_, hmust⟩
  have hexplicit : hunk_anchor C hunk = some hint := by
    have hfilter : hunk.context_hint.filter (· ≠ []) = some hint := by
      rw [hhint, Option.filter_some, if_pos (decide_eq_true hne)]
    rw [hunk_anchor, hfilter]
  obtain rfl := Option.some.inj (hanchor.symm.trans hexplicit)
  obtain ⟨rfl, rfl⟩ := Prod.ext_iff.mp (Option.some.inj (hsame.symm.trans hfound))
  exact hbounds

theorem apply_fuzzy_edited (hsearch : search_pattern ≠ []) {report : Option Text → Text} {applied : Applied}
    (h : apply_fuzzy M C content search_pattern replacement config report = .ok applied) :
    Edited content search_pattern replacement (config.allow_structural = false ∨ applied.strategy = some .exact) applied.content := by
  unfold apply_fuzzy at h
  simp only at h
  split at h
  · rename_i hfound
    obtain ⟨hcount, herror⟩ := Bool.and_eq_true_iff.mp hfound
    cases h
    exact fuzzy_edited hsearch (of_decide_eq_true hcount) (Option.isNone_iff_eq_none.mp herror)
  · cases h

/-- A hunk with a text to look for is placed, or not applied. -/
theorem apply_hunk_placed {hunk : Hunk} (hsearch : (hunk_search_replace hunk).1 ≠ []) {applied : Applied}
    (h : apply_hunk M C content hunk config = .ok applied) : Placed C content hunk config applied.content applied.strategy := by
  rw [apply_hunk, if_neg hsearch] at h
  cases hregion : (hunk_anchor C hunk).bind (anchor_region C content) with
  | some region =>
    rw [hregion] at h
    change apply_anchored M C content hunk config region = .ok applied at h
    unfold apply_anchored at h
    simp only at h
    split at h
    · rename_i span hspan
      cases h
      exact window_placed hregion (exact_edited (hspan ▸ List.mem_singleton_self span) _)
    · split at h
      · rename_i himplicit
        have hnone : ∀ hint, hunk.context_hint = some hint → hint ≠ [] → anchor_region C content hint = none := fun hint hhint hne => by
          rw [hhint] at himplicit
          simp [hne] at himplicit
        unfold apply_implicit at h
        split at h
        · obtain ⟨found, hfuzzy, rfl⟩ := map_eq_ok h
          exact window_placed hregion (apply_fuzzy_edited hsearch hfuzzy)
        · rename_i span hspan
          cases h
          exact edited_placed hnone (exact_edited (hspan ▸ List.mem_singleton_self span) _)
        · cases h
      · obtain ⟨found, hfuzzy, rfl⟩ := map_eq_ok h
        exact window_placed hregion (apply_fuzzy_edited hsearch hfuzzy)
  | none =>
    have hnone : ∀ hint, hunk.context_hint = some hint → hint ≠ [] → anchor_region C content hint = none := fun hint hhint hne => by
      have hfilter : hunk.context_hint.filter (· ≠ []) = some hint := by
        rw [hhint, Option.filter_some, if_pos (decide_eq_true hne)]
      rw [hunk_anchor, hfilter] at hregion
      exact hregion
    rw [hregion] at h
    change apply_unanchored M C content hunk config = .ok applied at h
    unfold apply_unanchored at h
    simp only at h
    split at h
    · rename_i span hspan
      cases h
      exact edited_placed hnone (exact_edited (hspan ▸ List.mem_singleton_self span) _)
    · exact edited_placed hnone (apply_fuzzy_edited hsearch h)
    · cases h

theorem infix_joinLines {line : Text} {lines : List Text} (h : line ∈ lines) : line <:+: joinLines lines := by
  obtain ⟨before, after, rfl⟩ := List.append_of_mem h
  rw [openLines_joinLines before (List.cons_ne_nil line after), joinLines_cons]
  exact ⟨openLines before, moreLines after, List.append_assoc ..⟩

/-- The added lines are part of what a placed hunk leaves. -/
theorem Placed.added {hunk : Hunk} {result : Text} {strategy : Option Strategy} (h : Placed C content hunk config result strategy)
    {line : HunkLine} (hline : line ∈ hunk.lines) (hadded : line.kind = .added) : line.content <:+: result := by
  obtain ⟨before, span, after, -, rfl, -, -⟩ := h
  have hmem : line.content ∈ (hunk.lines.filter (·.kind ≠ .removed)).map HunkLine.content := by
    refine List.mem_map_of_mem (List.mem_filter.mpr ⟨hline, ?_⟩)
    rw [hadded]
    rfl
  exact (infix_joinLines hmem).trans ⟨before, after, List.append_assoc ..⟩

/-- Lines come, and nothing says where. -/
def Hunk.InsertionOnly (hunk : Hunk) : Prop := hunk.lines ≠ [] ∧ ∀ line ∈ hunk.lines, line.kind = .added

theorem Hunk.InsertionOnly.search {hunk : Hunk} (h : hunk.InsertionOnly) : (hunk_search_replace hunk).1 = [] := by
  have hnone : hunk.lines.filter (·.kind ≠ .added) = [] :=
    List.filter_eq_nil_iff.mpr fun line hline => by simp [h.2 line hline]
  rw [hunk_search_replace, hnone]
  rfl

/-- The hunk's context and added lines stand in the content already, where they may. -/
def Standing (C : CharClass) (content : Text) (hunk : Hunk) (config : FuzzyConfig) : Prop :=
  ∃ before after, content = before ++ ((hunk_search_replace hunk).2 ++ after) ∧
    (∀ hint start stop, hunk.context_hint = some hint → hint ≠ [] → anchor_region C content hint = some (start, stop) →
      start ≤ before.length ∧ before.length + (hunk_search_replace hunk).2.length ≤ stop) ∧
    (config.allow_structural = false → (hunk_search_replace hunk).2 = [])

theorem placed_unchanged {hunk : Hunk} (hsearch : (hunk_search_replace hunk).1 = []) :
    Placed C content hunk config content none ↔ Standing C content hunk config := by
  constructor
  · rintro ⟨before, span, after, hcontent, hresult, hbounds, hmust⟩
    have hspan : span = (hunk_search_replace hunk).2 :=
      List.append_cancel_right (List.append_cancel_left (hcontent.symm.trans hresult))
    subst hspan
    exact ⟨before, after, hcontent, hbounds, fun hstrict => (hmust (Or.inl hstrict)).trans hsearch⟩
  · rintro ⟨before, after, hcontent, hbounds, hstrict⟩
    refine ⟨before, _, after, hcontent, hcontent, hbounds, fun hmust => ?_⟩
    rcases hmust with h | h
    · exact (hstrict h).trans hsearch.symm
    · cases h

/-- What a hunk is to do: it is placed, with its added lines, or reported; so is one that
says nothing about its place. -/
def Local (M : Measure) (C : CharClass) (content : Text) (hunk : Hunk) (config : FuzzyConfig) : Prop :=
  (∀ applied, apply_hunk M C content hunk config = .ok applied → Placed C content hunk config applied.content applied.strategy ∧
    ∀ line ∈ hunk.lines, line.kind = .added → line.content <:+: applied.content) ∧
  (hunk.InsertionOnly → ∃ error, apply_hunk M C content hunk config = .error error)

theorem local_iff {hunk : Hunk} : Local M C content hunk config ↔
    (hunk_search_replace hunk).1 ≠ [] ∨ ¬hunk.InsertionOnly ∧ Standing C content hunk config := by
  by_cases hsearch : (hunk_search_replace hunk).1 = []
  · have happly : apply_hunk M C content hunk config = .ok { content := content } := if_pos hsearch
    constructor
    · rintro ⟨hplaced, hinsertion⟩
      refine Or.inr ⟨fun honly => ?_, (placed_unchanged hsearch).mp (hplaced _ happly).1⟩
      obtain ⟨error, herror⟩ := hinsertion honly
      rw [happly] at herror
      cases herror
    · rintro (hne | ⟨honly, hstanding⟩)
      · exact absurd hsearch hne
      · refine ⟨fun applied h => ?_, fun h => absurd h honly⟩
        cases happly.symm.trans h
        have hplaced := (placed_unchanged hsearch).mpr hstanding
        exact ⟨hplaced, fun line hline hadded => hplaced.added hline hadded⟩
  · refine ⟨fun _ => Or.inl hsearch, fun _ => ⟨fun applied h => ?_, fun honly => absurd honly.search hsearch⟩⟩
    have hplaced := apply_hunk_placed hsearch h
    exact ⟨hplaced, fun line hline hadded => hplaced.added hline hadded⟩

/-- A failed update writes nothing, unless it is the write that fails. -/
theorem failed_update_unwritten {op : PatchOperation} {current_content : Option Text} {write_file : Text → Option Text}
    {unified_diff : Text → Text → Text} {strict : Bool} {error : Text}
    (h : (apply_update M C op current_content write_file unified_diff strict).result = .error error) :
    (apply_update M C op current_content write_file unified_diff strict).written = none ∨
      ∃ text, (apply_update M C op current_content write_file unified_diff strict).written = some text ∧ write_file text = some error := by
  revert h
  unfold apply_update
  split
  · exact fun _ => Or.inl rfl
  · split
    · exact fun _ => Or.inl rfl
    · rename_i patched _
      intro h
      refine Or.inr ⟨patched.content, rfl, ?_⟩
      simp only at h
      split at h
      · rename_i hwrite
        rw [hwrite, Except.error.inj h]
      · cases h

end Placing

/-- A hunk does what it is to do exactly where its context and removed lines make a text, or
what it would leave stands there already; an update that fails has written nothing. -/
theorem hunk_placed_iff (M : Measure) (C : CharClass) :
    (∀ content hunk config, Local M C content hunk config ↔
      (hunk_search_replace hunk).1 ≠ [] ∨ ¬hunk.InsertionOnly ∧ Standing C content hunk config) ∧
    ∀ op current_content write_file unified_diff strict error,
      (apply_update M C op current_content write_file unified_diff strict).result = .error error →
        (apply_update M C op current_content write_file unified_diff strict).written = none ∨
          ∃ text, (apply_update M C op current_content write_file unified_diff strict).written = some text ∧ write_file text = some error :=
  ⟨fun _ _ _ => local_iff, fun _ _ _ _ _ _ => failed_update_unwritten⟩

/-- An inserted line that is reported as applied and is not in the content. -/
theorem insertion_dropped : ¬Local .none .ascii "x".toList { context_hint := some "x".toList, lines := [⟨.added, "y".toList⟩] } default_config := by
  rintro ⟨-, hinsertion⟩
  obtain ⟨error, herror⟩ := hinsertion ⟨by decide, by decide⟩
  cases herror

end LeanFlow.Patches
