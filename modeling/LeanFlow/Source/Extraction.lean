import LeanFlow.Source.Containment
import LeanFlow.Source.Scratch

/-! Reading replacements back from a scratch file.

`fillGroups` finds texts for the groups between given literals whenever there are any
(`fillGroups_least`), and of all choices the one whose first different group is the
shortest. So what is read back fills the holes to the same file, and it is what was
written there when no other choice gives that file. -/
namespace LeanFlow.Source
open General Goals

/-! ### Lazy groups -/

/-- The first group in which two choices differ is the shorter one. -/
def Shorter : List Text → List Text → Prop := List.Lex fun g h => g.length < h.length

theorem Shorter.asymm {gs hs : List Text} (h : Shorter gs hs) : ¬Shorter hs gs := by
  induction h with
  | nil => exact nofun
  | rel hlt =>
    intro hback
    cases hback with
    | rel hlt' => omega
    | cons _ => omega
  | cons hrest ih =>
    intro hback
    cases hback with
    | rel hlt => omega
    | cons hrest' => exact ih hrest'

/-- The group is the shortest one with which the rest matches. -/
theorem firstGroup_spec (after : Text → Option (List Text)) (text : Text) (size fuel : Nat) :
    match firstGroup after text size fuel with
    | some groups => ∃ n rest, after (text.drop n) = some rest ∧ groups = text.take n :: rest ∧
        ∀ m, size ≤ m → m < n → after (text.drop m) = none
    | none => ∀ m, size ≤ m → m < size + fuel → after (text.drop m) = none := by
  induction fuel generalizing size with
  | zero => exact fun m hm hlt => by omega
  | succ fuel ih =>
    unfold firstGroup
    cases hafter : after (text.drop size) with
    | some rest => exact ⟨size, rest, hafter, rfl, fun m hm hlt => by omega⟩
    | none =>
      have hnext := ih (size + 1)
      have hmore (m : Nat) (hm : size ≤ m) (hlater : size + 1 ≤ m → after (text.drop m) = none) : after (text.drop m) = none := by
        rcases Nat.eq_or_lt_of_le hm with rfl | hlt
        · exact hafter
        · exact hlater hlt
      dsimp only
      cases hfound : firstGroup after text (size + 1) fuel with
      | some groups =>
        rw [hfound] at hnext
        obtain ⟨n, rest, hn, hgroups, hnone⟩ := hnext
        exact ⟨n, rest, hn, hgroups, fun m hm hlt => hmore m hm fun hm => hnone m hm hlt⟩
      | none =>
        rw [hfound] at hnext
        exact fun m hm hlt => hmore m hm fun hm => hnext m hm (by omega)

/-- What is found gives the text. -/
theorem fillGroups_sound {literals : List Text} {text : Text} {groups : List Text}
    (h : fillGroups literals text = some groups) :
    groups.length = literals.length ∧ weave [] (groups.zip literals) = text := by
  induction literals generalizing text groups with
  | nil =>
    rw [fillGroups] at h
    split at h
    · rename_i hempty
      obtain rfl := Option.some.inj h
      exact ⟨rfl, hempty.symm⟩
    · cases h
  | cons literal literals ih =>
    have hspec := firstGroup_spec (fun t => if literal.isPrefixOf t then fillGroups literals (t.drop literal.length) else none)
      text 0 (text.length + 1)
    rw [fillGroups] at h
    rw [h] at hspec
    obtain ⟨n, rest, hafter, rfl, -⟩ := hspec
    split at hafter
    · rename_i hstarts
      obtain ⟨hlength, htext⟩ := ih hafter
      obtain ⟨tail, htail⟩ := List.isPrefixOf_iff_prefix.mp hstarts
      refine ⟨by rw [List.length_cons, List.length_cons, hlength], ?_⟩
      rw [List.zip_cons_cons, weave_cons, List.nil_append]
      have hrest : weave literal (rest.zip literals) = literal ++ weave [] (rest.zip literals) := rfl
      rw [hrest, htext, ← htail, List.drop_left, htail, List.take_append_drop]
    · cases hafter

/-- **Some choice is found when there is one**, and none is shorter. -/
theorem fillGroups_least {literals groups : List Text} {text : Text} (hlength : groups.length = literals.length)
    (htext : weave [] (groups.zip literals) = text) :
    ∃ found, fillGroups literals text = some found ∧ (found = groups ∨ Shorter found groups) := by
  induction literals generalizing text groups with
  | nil =>
    obtain rfl := List.length_eq_zero_iff.mp hlength
    exact ⟨[], if_pos htext.symm, Or.inl rfl⟩
  | cons literal literals ih =>
    obtain ⟨group, groups, rfl⟩ := List.exists_cons_of_length_eq_add_one hlength
    rw [List.length_cons, List.length_cons, Nat.add_right_cancel_iff] at hlength
    have hrest : weave literal (groups.zip literals) = literal ++ weave [] (groups.zip literals) := rfl
    rw [List.zip_cons_cons, weave_cons, List.nil_append, hrest] at htext
    obtain ⟨later, hlater, hleast⟩ := ih hlength rfl
    have hafter : (if literal.isPrefixOf (text.drop group.length) then
        fillGroups literals ((text.drop group.length).drop literal.length) else none) = some later := by
      have hstarts : literal.isPrefixOf (text.drop group.length) = true := by
        rw [← htext, List.drop_left, List.isPrefixOf_iff_prefix]
        exact List.prefix_append ..
      rw [if_pos hstarts, ← htext, List.drop_left, List.drop_left]
      exact hlater
    have hspec := firstGroup_spec (fun t => if literal.isPrefixOf t then fillGroups literals (t.drop literal.length) else none)
      text 0 (text.length + 1)
    rw [fillGroups]
    have hinside : group.length < 0 + (text.length + 1) := by
      rw [← htext]
      simp only [List.length_append]
      omega
    cases hfound : firstGroup (fun t => if literal.isPrefixOf t then fillGroups literals (t.drop literal.length) else none)
        text 0 (text.length + 1) with
    | none =>
      rw [hfound] at hspec
      rw [hspec group.length (Nat.zero_le _) hinside] at hafter
      cases hafter
    | some found =>
      rw [hfound] at hspec
      obtain ⟨n, rest, hn, rfl, hnone⟩ := hspec
      refine ⟨_, rfl, ?_⟩
      rcases Nat.lt_trichotomy n group.length with hlt | rfl | hlt
      · refine Or.inr (.rel ?_)
        rw [List.length_take]
        omega
      · obtain rfl := Option.some.inj (hn.symm.trans hafter)
        have htake : text.take group.length = group := by rw [← htext, List.take_left]
        rw [htake]
        exact hleast.imp (fun h => by rw [h]) .cons
      · rw [hnone group.length (Nat.zero_le _) hlt] at hafter
        cases hafter

/-! ### Filling holes -/

/-- The text with replacements in the given holes. -/
def fill_holes (before : Text) (spans : List (Nat × Nat)) (holes : List Nat) (replacements : List Text) : Text :=
  splice (Dict.ofList (holes.zip replacements)).get? spans before

/-- Spans one after the other. -/
def Laid (limit : Nat) : Nat → List (Nat × Nat) → Prop
  | _, [] => True
  | cursor, (start, stop) :: spans => cursor ≤ start ∧ start ≤ stop ∧ stop ≤ limit ∧ Laid limit stop spans

theorem Laid.mono {limit cursor cursor' : Nat} {spans : List (Nat × Nat)} (h : Laid limit cursor spans) (hle : cursor' ≤ cursor) :
    Laid limit cursor' spans := by
  cases spans with
  | nil => trivial
  | cons span spans => exact ⟨hle.trans h.1, h.2⟩

theorem tokens_laid {C : CharClass} {spans : List (Nat × Nat)} {previous : Option Char} {pos : Nat} {x : Text}
    (h : tokens C previous pos x = spans) : Laid (pos + x.length) pos spans := by
  induction spans generalizing previous pos x with
  | nil => trivial
  | cons span spans ih =>
    obtain ⟨a, z⟩ := span
    obtain ⟨u, v, rfl, rfl, rfl, -, -, -, hrest⟩ := tokens_cons h
    have hlater := ih hrest
    have hlength : (u ++ hole ++ v).length = u.length + 5 + v.length := by
      simp only [List.length_append]
      rfl
    rw [hlength, show pos + (u.length + 5 + v.length) = pos + u.length + 5 + v.length by omega]
    exact ⟨Nat.le_add_right _ _, Nat.le_add_right _ _, Nat.le_add_right _ _, hlater⟩

/-- Filling the selected spans, from one on, keeps the literals around them. -/
theorem fill_from {before : Text} {replacements : Nat → Option Text} {spans : List (Nat × Nat)} {cursor first : Nat}
    {holes : List Nat} {texts : List Text} (hlaid : Laid before.length cursor spans)
    (hascending : holes.Pairwise (· < ·)) (hrange : ∀ h ∈ holes, first ≤ h ∧ h < first + spans.length)
    (hlength : texts.length = holes.length) (hsome : ∀ p ∈ holes.zip texts, replacements p.1 = some p.2)
    (hnone : ∀ i, first ≤ i → i ∉ holes → replacements i = none) :
    (spans.zipIdx first).foldr (fillSpan replacements) before = before.take cursor ++
      weave (literals before cursor (holes.filterMap fun h => spans[h - first]?)).1
        (texts.zip (literals before cursor (holes.filterMap fun h => spans[h - first]?)).2) := by
  induction spans generalizing cursor first holes texts with
  | nil =>
    have hempty : holes = [] := List.eq_nil_iff_forall_not_mem.mpr fun h hmem => by
      have := hrange h hmem
      simp at this
      omega
    subst hempty
    simp [literals, weave]
  | cons span spans ih =>
    obtain ⟨start, stop⟩ := span
    obtain ⟨hstart, hstop, hlimit, hlaid⟩ := hlaid
    rw [List.zipIdx_cons, List.foldr_cons]
    have hshift (later : List Nat) (hlater : ∀ h ∈ later, first < h) :
        (later.filterMap fun h => ((start, stop) :: spans)[h - first]?) = later.filterMap fun h => spans[h - (first + 1)]? := by
      refine List.filterMap_congr fun h hmem => ?_
      have := hlater h hmem
      rw [show h - first = h - (first + 1) + 1 by omega, List.getElem?_cons_succ]
    by_cases hhole : first ∈ holes
    · cases holes with
      | nil => cases hhole
      | cons h holes =>
        obtain ⟨hhead, hascending⟩ := List.pairwise_cons.mp hascending
        have hfirst : h = first := by
          have hle := (hrange h (List.mem_cons_self ..)).1
          rcases List.mem_cons.mp hhole with heq | hlater
          · exact heq.symm
          · have := hhead first hlater
            omega
        subst hfirst
        obtain ⟨text, texts, rfl⟩ := List.exists_cons_of_length_eq_add_one hlength
        rw [List.length_cons, List.length_cons, Nat.add_right_cancel_iff] at hlength
        have hrest := @ih stop (h + 1) holes texts hlaid hascending
          (fun other hother => by
            have hlt := hhead other hother
            have hin := (hrange other (List.mem_cons_of_mem _ hother)).2
            rw [List.length_cons] at hin
            omega)
          hlength (fun p hp => hsome p (by rw [List.zip_cons_cons]; exact List.mem_cons_of_mem _ hp))
          (fun i hi hmem => hnone i (by omega) (by
            rw [List.mem_cons, not_or]
            exact ⟨by omega, hmem⟩))
        have hfill : replacements h = some text := hsome (h, text) (by rw [List.zip_cons_cons]; exact List.mem_cons_self ..)
        have hkept : before.take start = before.take cursor ++ (before.drop cursor).take (start - cursor) := by
          rw [← List.take_add, Nat.add_sub_cancel' hstart]
        have hstopped : (before.take stop).length = stop := by rw [List.length_take, Nat.min_eq_left hlimit]
        have hleft (rest : Text) : (before.take stop ++ rest).take start = before.take start := by
          rw [List.take_append_of_le_length (hstopped.symm ▸ hstop), List.take_take, Nat.min_eq_left hstop]
        have hright (rest : Text) : (before.take stop ++ rest).drop stop = rest := List.drop_left' hstopped
        rw [hrest, fillSpan, hfill]
        dsimp only
        rw [hleft, hright, hkept, List.filterMap_cons_some (b := (start, stop)) (by simp), hshift holes hhead, literals,
          List.zip_cons_cons, weave_cons, List.append_assoc, List.append_assoc]
    · have hlater (h : Nat) (hmem : h ∈ holes) : first < h :=
        Nat.lt_of_le_of_ne (hrange h hmem).1 fun heq => hhole (heq ▸ hmem)
      rw [fillSpan_none (hnone first le_rfl hhole), hshift holes hlater]
      refine ih (hlaid.mono (hstart.trans hstop)) hascending (fun h hmem => ?_) hlength hsome fun i hi => hnone i (by omega)
      have hlt := hlater h hmem
      have hin := (hrange h hmem).2
      rw [List.length_cons] at hin
      omega

/-! ### Reading back what was filled in -/

section Extraction

variable {C : CharClass} {before : Text} {holes : List Nat} {spans : List (Nat × Nat)}

/-- Holes as a job is given them: some, in ascending order, and all in the text. -/
structure Selects (holes : List Nat) (spans : List (Nat × Nat)) : Prop where
  nonempty : holes ≠ []
  ascending : holes.Pairwise (· < ·)
  valid : ∀ hole ∈ holes, hole < spans.length

/-- What stands before the first of the holes, and behind each of them. -/
def surroundings (before : Text) (spans : List (Nat × Nat)) (holes : List Nat) : Text × List Text :=
  literals before 0 (holes.filterMap (spans[·]?))

theorem literals_length (before : Text) (cursor : Nat) (spans : List (Nat × Nat)) :
    (literals before cursor spans).2.length = spans.length := by
  induction spans generalizing cursor with
  | nil => rfl
  | cons span spans ih =>
    rw [literals, List.length_cons, List.length_cons, ih]

theorem selected_length (hvalid : ∀ hole ∈ holes, hole < spans.length) :
    (holes.filterMap (spans[·]?)).length = holes.length := by
  induction holes with
  | nil => rfl
  | cons hole holes ih =>
    obtain ⟨hhole, hrest⟩ := List.forall_mem_cons.mp hvalid
    rw [List.filterMap_cons_some (List.getElem?_eq_getElem hhole), List.length_cons, List.length_cons, ih hrest]

theorem surroundings_length (h : Selects holes spans) : (surroundings before spans holes).2.length = holes.length :=
  (literals_length ..).trans (selected_length h.valid)

theorem fill_holes_eq (hspans : sorry_spans C before = .ok spans) (h : Selects holes spans) {texts : List Text}
    (hlength : texts.length = holes.length) : fill_holes before spans holes texts =
      (surroundings before spans holes).1 ++ weave [] (texts.zip (surroundings before spans holes).2) := by
  have hzip : (holes.zip texts).map (·.1) = holes := List.map_fst_zip (by omega)
  have hdistinct : holes.Nodup := h.ascending.imp Nat.ne_of_lt
  have hlaid : Laid before.length 0 spans := by
    rw [sorry_spans] at hspans
    cases hmask : lean_code_mask before with
    | error e =>
      rw [hmask] at hspans
      cases hspans
    | ok mask =>
      rw [hmask] at hspans
      have hlaid := tokens_laid (Except.ok.inj hspans)
      rwa [Nat.zero_add, length_mask hmask] at hlaid
  exact fill_from hlaid h.ascending (fun hole hhole => ⟨Nat.zero_le _, (Nat.zero_add spans.length).symm ▸ h.valid hole hhole⟩) hlength
    (fun p hp => (Dict.get?_eq_some_iff _ _ _).mpr (mem_foldl_set_of_mem (by rw [hzip]; exact hdistinct) hp))
    (fun i _ hi => (get?_foldl_set (by rwa [hzip])).trans (Dict.get?_empty i))

theorem extract_eq (hspans : sorry_spans C before = .ok spans) (h : Selects holes spans) (after : Text) :
    extract_scratch_replacements C before after holes =
      .ok (if (surroundings before spans holes).1.isPrefixOf after then
        fillGroups (surroundings before spans holes).2 (after.drop (surroundings before spans holes).1.length) else none) := by
  have hselected := selected_length h.valid
  have hsome : holes.filterMap (spans[·]?) ≠ [] := by
    intro hnone
    rw [hnone] at hselected
    exact h.nonempty (List.length_eq_zero_iff.mp hselected.symm)
  rw [extract_scratch_replacements, hspans]
  show (if (holes.filterMap (spans[·]?)).length ≠ holes.length ∨ holes.filterMap (spans[·]?) = [] then _ else _) = _
  rw [if_neg (by simp [hselected, hsome])]
  show (if (surroundings before spans holes).1.isPrefixOf after then _ else _) = _
  split <;> rfl

/-- A choice of texts for the holes that gives the file. -/
structure Gives (before after : Text) (spans : List (Nat × Nat)) (holes : List Nat) (texts : List Text) : Prop where
  length : texts.length = holes.length
  fills : fill_holes before spans holes texts = after

theorem gives_of_extract (hspans : sorry_spans C before = .ok spans) (h : Selects holes spans) {after : Text} {texts : List Text}
    (hextract : extract_scratch_replacements C before after holes = .ok (some texts)) : Gives before after spans holes texts := by
  rw [extract_eq hspans h] at hextract
  have hfound := Except.ok.inj hextract
  split at hfound
  · rename_i hstarts
    obtain ⟨hlength, htext⟩ := fillGroups_sound hfound
    rw [surroundings_length h] at hlength
    obtain ⟨tail, htail⟩ := List.isPrefixOf_iff_prefix.mp hstarts
    refine ⟨hlength, ?_⟩
    rw [fill_holes_eq hspans h hlength, htext, ← htail, List.drop_left]
  · cases hfound

theorem extract_least (hspans : sorry_spans C before = .ok spans) (h : Selects holes spans) {after : Text} {texts : List Text}
    (hgives : Gives before after spans holes texts) : ∃ found,
      extract_scratch_replacements C before after holes = .ok (some found) ∧ (found = texts ∨ Shorter found texts) := by
  have hfill := hgives.fills
  rw [fill_holes_eq hspans h hgives.length] at hfill
  have hstarts : (surroundings before spans holes).1.isPrefixOf after = true :=
    List.isPrefixOf_iff_prefix.mpr ⟨_, hfill⟩
  obtain ⟨found, hfound, hleast⟩ := fillGroups_least (hgives.length.trans (surroundings_length h).symm) (@List.drop_left _ (surroundings before spans holes).1 _).symm
  rw [hfill] at hfound
  exact ⟨found, by rw [extract_eq hspans h, if_pos hstarts, hfound], hleast⟩

/-- A replacement with the segment behind it has that segment at its end only. -/
def AtEndOnly (text segment : Text) : Prop := ∀ a b, text ++ segment = a ++ segment ++ b → b = []

/-- No other choice that gives the same file is shorter. -/
theorem not_shorter {literals texts others : List Text} (hlength : texts.length = literals.length)
    (hothers : others.length = literals.length) (hsame : weave [] (others.zip literals) = weave [] (texts.zip literals))
    (hends : ∀ p ∈ (texts.zip literals).dropLast, AtEndOnly p.1 p.2) : ¬Shorter others texts := by
  induction literals generalizing texts others with
  | nil =>
    obtain rfl := List.length_eq_zero_iff.mp hlength
    exact nofun
  | cons literal literals ih =>
    obtain ⟨text, texts, rfl⟩ := List.exists_cons_of_length_eq_add_one hlength
    obtain ⟨other, others, rfl⟩ := List.exists_cons_of_length_eq_add_one hothers
    rw [List.length_cons, List.length_cons, Nat.add_right_cancel_iff] at hlength hothers
    simp only [List.zip_cons_cons, weave_cons, List.nil_append] at hsame
    have hweave (choice : List Text) : weave literal (choice.zip literals) = literal ++ weave [] (choice.zip literals) := rfl
    rw [hweave, hweave] at hsame
    intro hshorter
    cases hshorter with
    | rel hlt =>
      obtain ⟨more, rfl, hrest⟩ : ∃ more, text = other ++ more ∧
          literal ++ weave [] (others.zip literals) = more ++ (literal ++ weave [] (texts.zip literals)) := by
        rcases List.append_eq_append_iff.mp hsame with ⟨more, htext, hrest⟩ | ⟨more, hother, -⟩
        · exact ⟨more, htext, hrest⟩
        · rw [hother, List.length_append] at hlt
          omega
      have hmore : more ≠ [] := by
        rintro rfl
        simp at hlt
      cases literals with
      | nil =>
        have hlengths := congrArg List.length hrest
        simp only [List.zip_nil_right, weave, List.flatMap_nil, List.append_nil, List.length_append] at hlengths
        exact hmore (List.length_eq_zero_iff.mp (by omega))
      | cons next literals =>
        obtain ⟨later, texts, rfl⟩ := List.exists_cons_of_length_eq_add_one hlength
        have hends := hends (other ++ more, literal) (by simp)
        have hwhole : more ++ literal <+: literal ++ weave [] (others.zip (next :: literals)) :=
          ⟨weave [] ((later :: texts).zip (next :: literals)), by rw [List.append_assoc, hrest]⟩
        obtain ⟨behind, hbehind⟩ := List.prefix_of_prefix_length_le (List.prefix_append literal _) hwhole (by simp)
        have hnone := hends other behind (by rw [List.append_assoc, ← hbehind, List.append_assoc])
        rw [hnone, List.append_nil] at hbehind
        have hlengths := congrArg List.length hbehind
        rw [List.length_append] at hlengths
        exact hmore (List.length_eq_zero_iff.mp (by omega))
    | cons hrest =>
      refine ih hlength hothers (List.append_cancel_left (List.append_cancel_left hsame)) (fun p hp => hends p ?_) hrest
      rw [List.zip_cons_cons, List.dropLast_cons_of_ne_nil (fun hnone => by simp [hnone] at hp)]
      exact List.mem_cons_of_mem _ hp

/-- **What is read back fills the holes to the same file**; something is read back whenever something does, and what
was written is, when each segment between two holes shows where the replacement before it ends. -/
theorem scratch_replacements_exact (hspans : sorry_spans C before = .ok spans) (h : Selects holes spans) :
    (∀ after texts, extract_scratch_replacements C before after holes = .ok (some texts) →
      Gives before after spans holes texts) ∧
    (∀ after, (∃ texts, Gives before after spans holes texts) →
      ∃ texts, extract_scratch_replacements C before after holes = .ok (some texts)) ∧
    (∀ after texts, extract_scratch_replacements C before after holes = .ok (some texts) ↔
      Gives before after spans holes texts ∧
        ∀ others, Gives before after spans holes others → texts = others ∨ Shorter texts others) ∧
    ∀ texts : List Text, texts.length = holes.length →
      (∀ p ∈ (texts.zip (surroundings before spans holes).2).dropLast, AtEndOnly p.1 p.2) →
      extract_scratch_replacements C before (fill_holes before spans holes texts) holes = .ok (some texts) := by
  refine ⟨fun after texts => gives_of_extract hspans h, fun after ⟨texts, hgives⟩ => ?_, fun after texts => ⟨fun hextract => ?_, ?_⟩,
    fun texts hlength hends => ?_⟩
  · obtain ⟨found, hfound, -⟩ := extract_least hspans h hgives
    exact ⟨found, hfound⟩
  · refine ⟨gives_of_extract hspans h hextract, fun others hothers => ?_⟩
    obtain ⟨found, hfound, hleast⟩ := extract_least hspans h hothers
    obtain rfl : found = texts := Option.some.inj (Except.ok.inj (hfound.symm.trans hextract))
    exact hleast
  · rintro ⟨hgives, hleast⟩
    obtain ⟨found, hfound, rfl | hshorter⟩ := extract_least hspans h hgives
    · exact hfound
    · rcases hleast found (gives_of_extract hspans h hfound) with rfl | hback
      · exact hfound
      · exact absurd hback hshorter.asymm
  · have hgives : Gives before (fill_holes before spans holes texts) spans holes texts := ⟨hlength, rfl⟩
    obtain ⟨found, hfound, rfl | hshorter⟩ := extract_least hspans h hgives
    · exact hfound
    · have hother := gives_of_extract hspans h hfound
      have hsame := hother.fills
      rw [fill_holes_eq hspans h hother.length, fill_holes_eq hspans h hlength] at hsame
      exact absurd hshorter (not_shorter (hlength.trans (surroundings_length h).symm)
        (hother.length.trans (surroundings_length h).symm) (List.append_cancel_left hsame) hends)

theorem goal_read_back : extract_scratch_replacements .ascii "(sorry, sorry)".toList
    (fill_holes "(sorry, sorry)".toList [(1, 6), (8, 13)] [0, 1] ["x".toList, "y".toList]) [0, 1] =
      .ok (some ["x".toList, "y".toList]) := by
  have hspans : sorry_spans .ascii "(sorry, sorry)".toList = .ok [(1, 6), (8, 13)] := by decide +kernel
  have hselects : Selects [0, 1] [(1, 6), (8, 13)] := ⟨by decide, by decide, by decide⟩
  have hends (p : Text × Text) (hp : p ∈ (["x".toList, "y".toList].zip
      (surroundings "(sorry, sorry)".toList [(1, 6), (8, 13)] [0, 1]).2).dropLast) : AtEndOnly p.1 p.2 := by
    obtain rfl : p = ("x".toList, ", ".toList) := by simpa [surroundings, literals] using hp
    intro a b heq
    cases a with
    | nil => simp at heq
    | cons c a =>
      have hlength := congrArg List.length heq
      simp only [List.length_append, List.length_cons] at hlength
      exact List.length_eq_zero_iff.mp (by simp at hlength; omega)
  exact (scratch_replacements_exact hspans hselects).2.2.2 ["x".toList, "y".toList] rfl hends

/-- With no hole nothing is read back; and a replacement that ends like the segment behind it begins is cut short,
though neither replacement contains that segment. -/
theorem overlap_cut_short :
    (sorry_spans .ascii "x".toList = .ok [] ∧ fill_holes "x".toList [] [] [] = "x".toList ∧
      extract_scratch_replacements .ascii "x".toList "x".toList [] = .ok none) ∧
    sorry_spans .ascii "sorry aa sorry".toList = .ok [(0, 5), (9, 14)] ∧
    (surroundings "sorry aa sorry".toList [(0, 5), (9, 14)] [0, 1]).2 = [" aa ".toList, []] ∧
    ¬" aa ".toList <:+: "x aa".toList ∧ ¬" aa ".toList <:+: "y".toList ∧
    extract_scratch_replacements .ascii "sorry aa sorry".toList
      (fill_holes "sorry aa sorry".toList [(0, 5), (9, 14)] [0, 1] ["x aa".toList, "y".toList]) [0, 1] =
        .ok (some ["x".toList, "aa y".toList]) := by
  decide +kernel

end Extraction

end LeanFlow.Source
