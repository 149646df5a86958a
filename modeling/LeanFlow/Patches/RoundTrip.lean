import LeanFlow.Patches.V4A
import Mathlib.Data.List.Infix
import Mathlib.Data.List.TakeDrop
import Mathlib.Data.Nat.Find

/-! The operations of a patch, written and read back.

Reading the standard text of operations gives each of them back without its empty hunks,
and with its hint and its source path up to the first place where the format ends them
(`parse_serialize`). -/
namespace LeanFlow.Patches
open General Source

variable {C : CharClass}

/-! ### Spaces -/

theorem space_space (C : CharClass) : C.space ' ' = true := by
  rw [C.space_ascii ' ' (by decide)]
  decide

/-- A text as it stands between two spaces. -/
structure Trimmed (C : CharClass) (text : Text) : Prop where
  single_line : '\n' ∉ text
  first : ∃ c, text.head? = some c ∧ C.space c = false
  last : ∃ c, text.getLast? = some c ∧ C.space c = false

namespace Trimmed

variable {text : Text}

theorem of_ends (hline : '\n' ∉ text) (hfirst : text.head?.any (!C.space ·)) (hlast : text.getLast?.any (!C.space ·)) :
    Trimmed C text := by
  obtain ⟨c, hc, hspace⟩ := (Option.any_eq_true _ _).mp hfirst
  obtain ⟨d, hd, hspace'⟩ := (Option.any_eq_true _ _).mp hlast
  exact ⟨hline, ⟨c, hc, by simpa using hspace⟩, ⟨d, hd, by simpa using hspace'⟩⟩

theorem ne_nil (h : Trimmed C text) : text ≠ [] := by
  rintro rfl
  obtain ⟨c, hc, -⟩ := h.first
  cases hc

theorem lstrip_append (h : Trimmed C text) (rest : Text) : lstrip C (text ++ rest) = text ++ rest := by
  obtain ⟨c, hc, hspace⟩ := h.first
  cases text with
  | nil => cases hc
  | cons d text =>
    obtain rfl := Option.some.inj hc
    exact List.dropWhile_cons_of_neg (by simp [hspace])

theorem strip (h : Trimmed C text) : strip C text = text := by
  have hlstrip := h.lstrip_append []
  rw [List.append_nil] at hlstrip
  obtain ⟨c, hc, hspace⟩ := h.last
  have hrev : text.reverse.dropWhile C.space = text.reverse := by
    cases hr : text.reverse with
    | nil => rfl
    | cons d rest =>
      rw [← List.head?_reverse, hr] at hc
      obtain rfl := Option.some.inj hc
      exact List.dropWhile_cons_of_neg (by simp [hspace])
  rw [Source.strip, hlstrip, rstrip, hrev, List.reverse_reverse]

end Trimmed

/-! ### Groups -/

section Groups

variable {β : Type} {next : Text → Option β} {text : Text}

/-- The group ends at the first place where the rest of the expression goes on. -/
theorem lazy_group_at {n : Nat} (hn : n < text.length) {found : β} (hfound : next (text.drop (n + 1)) = some found)
    (hnone : ∀ m < n, next (text.drop (m + 1)) = none) : lazy_group next text = some (text.take (n + 1), found) := by
  refine List.findSome?_eq_some_iff.mpr ⟨List.range n, n, (List.range text.length).drop (n + 1), ?_, by rw [hfound]; rfl, fun m hm => ?_⟩
  · have hcut := (List.take_append_drop n (List.range text.length)).symm
    rwa [List.take_range, Nat.min_eq_left (Nat.le_of_lt hn), List.drop_eq_getElem_cons (by simpa using hn), List.getElem_range] at hcut
  · rw [hnone m (List.mem_range.mp hm)]
    rfl

/-- Where the rest of the expression goes on somewhere, it does at a first place. -/
theorem lazy_group_least {n : Nat} (hn : n < text.length) {found : β} (hfound : next (text.drop (n + 1)) = some found) :
    ∃ m ≤ n, ∃ found', next (text.drop (m + 1)) = some found' ∧ lazy_group next text = some (text.take (m + 1), found') := by
  have hex : ∃ m, (next (text.drop (m + 1))).isSome = true := ⟨n, by rw [hfound]; rfl⟩
  obtain ⟨found', hfound'⟩ := Option.isSome_iff_exists.mp (Nat.find_spec hex)
  have hle : Nat.find hex ≤ n := Nat.find_min' hex (by rw [hfound]; rfl)
  refine ⟨Nat.find hex, hle, found', hfound', lazy_group_at (by omega) hfound' fun m hm => ?_⟩
  have hnot := Nat.find_min hex hm
  simpa using hnot

/-- Behind one space the rest of the expression starts at the next character. -/
theorem spaced_space {found : β} (htext : ∃ c, text.head? = some c ∧ C.space c = false) (hfound : next text = some found) :
    spaced C next (' ' :: text) = some found := by
  obtain ⟨c, hc, hspace⟩ := htext
  cases text with
  | nil => cases hc
  | cons d text =>
    obtain rfl := Option.some.inj hc
    have htake : ((' ' :: d :: text).takeWhile C.space).length + 1 = 2 := by
      rw [List.takeWhile_cons_of_pos (space_space C), List.takeWhile_cons_of_neg (by simp [hspace])]
      rfl
    rw [spaced, htake, show (List.range 2).reverse = [1, 0] from rfl, List.findSome?_cons, List.drop_one, List.tail_cons, hfound]

end Groups

theorem after_word_append (word : String) (text : Text) : after_word word (word.toList ++ text) = some text := by
  rw [after_word, if_pos (List.isPrefixOf_iff_prefix.mpr (List.prefix_append ..)), List.drop_left]

/-- A word that a text does not start with. -/
theorem after_word_none {word : String} {text : Text} (h : ¬word.toList <+: text) : after_word word text = none :=
  if_neg fun hword => h (List.isPrefixOf_iff_prefix.mp hword)

theorem lstrip_space (text : Text) : lstrip C (' ' :: text) = lstrip C text :=
  List.dropWhile_cons_of_pos (space_space C)

/-- Spaces in front of a text that ends in none of them. -/
theorem lstrip_drop {text : Text} (h : Trimmed C text) {n : Nat} (hn : n < text.length) (rest : Text) :
    ∃ m, n ≤ m ∧ m < text.length ∧ lstrip C (text.drop n ++ rest) = text.drop m ++ rest := by
  by_cases hspace : C.space text[n] = true
  · have hnext : n + 1 < text.length := by
      obtain ⟨c, hc, hlast⟩ := h.last
      rw [List.getLast?_eq_getElem?] at hc
      by_contra hend
      have hsame : text.length - 1 = n := by omega
      rw [hsame, List.getElem?_eq_getElem hn] at hc
      rw [Option.some.inj hc] at hspace
      rw [hspace] at hlast
      cases hlast
    obtain ⟨m, hm, hlt, hstrip⟩ := lstrip_drop h hnext rest
    refine ⟨m, by omega, hlt, ?_⟩
    rw [List.drop_eq_getElem_cons hn, List.cons_append, lstrip, List.dropWhile_cons_of_pos hspace]
    exact hstrip
  · refine ⟨n, Nat.le_refl n, hn, ?_⟩
    rw [List.drop_eq_getElem_cons hn, List.cons_append, lstrip, List.dropWhile_cons_of_neg hspace]
termination_by text.length - n

section Words

variable {β : Type} {x : Text}

/-- A group before a word of two characters is cut at the first place where the word stands. -/
theorem lazy_word (w : String) (tail : Text) (k : Text → Option β) {a b : Char} (hw : w.toList = [a, b]) (ha : C.space a = false) (hb : b ≠ ' ') (hx : Trimmed C x)
    (hk : ∀ rest, tail <:+ rest → (k rest).isSome = true) : ∃ n < x.length, ∃ found,
      lazy_group (fun text => (after_word w (lstrip C text)).bind k) (x ++ (' ' :: w.toList ++ tail)) = some (x.take (n + 1), found) ∧
      (n + 1 = x.length ↔ ¬w.toList <:+: x.tail) ∧ (n + 1 = x.length → k tail = some found) := by
  have hpos : 0 < x.length := List.length_pos_iff.mpr hx.ne_nil
  have hword (rest : Text) : lstrip C (w.toList ++ rest) = w.toList ++ rest := by
    rw [hw]
    exact List.dropWhile_cons_of_neg (by simp [ha])
  have hend : (after_word w (lstrip C ((x ++ (' ' :: w.toList ++ tail)).drop (x.length - 1 + 1)))).bind k = k tail := by
    rw [Nat.sub_add_cancel hpos, List.drop_left, List.cons_append, lstrip_space, hword, after_word_append]
    rfl
  obtain ⟨last, hlast⟩ := Option.isSome_iff_exists.mp (hk tail (List.suffix_refl _))
  have hlong : x.length - 1 < (x ++ (' ' :: w.toList ++ tail)).length := by
    rw [List.length_append]
    omega
  have htake (n : Nat) (hn : n < x.length) : (x ++ (' ' :: w.toList ++ tail)).take (n + 1) = x.take (n + 1) :=
    List.take_append_of_le_length hn
  by_cases hinside : w.toList <:+: x.tail
  · obtain ⟨before, behind, hsplit⟩ := hinside
    have hlength := congrArg List.length hsplit
    rw [List.length_append, List.length_append, hw, List.length_tail, List.length_cons, List.length_singleton] at hlength
    have hcut : (x ++ (' ' :: w.toList ++ tail)).drop (before.length + 1) = w.toList ++ (behind ++ (' ' :: w.toList ++ tail)) := by
      rw [List.drop_append_of_le_length (by omega), Nat.add_comm, ← List.drop_drop, List.drop_one, ← hsplit, List.append_assoc,
        List.drop_left, List.append_assoc]
    obtain ⟨found, hfound⟩ := Option.isSome_iff_exists.mp (hk (behind ++ (' ' :: w.toList ++ tail))
      ((List.suffix_append (' ' :: w.toList) tail).trans (List.suffix_append behind _)))
    have hhere : (after_word w (lstrip C ((x ++ (' ' :: w.toList ++ tail)).drop (before.length + 1)))).bind k = some found := by
      rw [hcut, hword, after_word_append]
      exact hfound
    have hwithin : before.length < (x ++ (' ' :: w.toList ++ tail)).length := by
      rw [List.length_append]
      omega
    obtain ⟨m, hm, found', -, hgroup⟩ := @lazy_group_least _ (fun text => (after_word w (lstrip C text)).bind k) _ _ hwithin _ hhere
    rw [htake m (by omega)] at hgroup
    exact ⟨m, by omega, found', hgroup, iff_of_false (by omega) (not_not_intro ⟨before, behind, hsplit⟩), fun h => by omega⟩
  · have hnone (m : Nat) (hm : m < x.length - 1) :
        (after_word w (lstrip C ((x ++ (' ' :: w.toList ++ tail)).drop (m + 1)))).bind k = none := by
      obtain ⟨m', hle, hlt, hstrip⟩ := lstrip_drop hx (show m + 1 < x.length by omega) (' ' :: w.toList ++ tail)
      rw [List.drop_append_of_le_length (by omega), hstrip, after_word_none]
      · rfl
      · intro hstarts
        by_cases htwo : m' + 1 < x.length
        · refine hinside (((List.prefix_of_prefix_length_le hstarts (List.prefix_append _ _) ?_).isInfix).trans ?_)
          · rw [hw, List.length_drop, List.length_cons, List.length_singleton]
            omega
          · rw [show m' = 1 + (m' - 1) by omega, ← List.drop_drop, List.drop_one]
            exact (List.drop_suffix _ _).isInfix
        · have hone : x.drop m' = [x[m']] := by
            rw [List.drop_eq_getElem_cons hlt, List.drop_of_length_le (by omega)]
          obtain ⟨more, hmore⟩ := hstarts
          rw [hone, hw] at hmore
          simp only [List.cons_append, List.nil_append, List.cons.injEq] at hmore
          exact hb hmore.2.1
    have hgroup := @lazy_group_at _ (fun text => (after_word w (lstrip C text)).bind k) _ _ hlong _ (hend.trans hlast) hnone
    rw [htake _ (by omega)] at hgroup
    exact ⟨x.length - 1, by omega, last, hgroup, iff_of_true (by omega) hinside, fun _ => hlast⟩

end Words

/-! ### Header lines -/

/-- A character of the format is no space. -/
theorem space_visible {c : Char} (hascii : c.val < 128) (h : CharClass.ascii.space c = false) : C.space c = false :=
  (C.space_ascii c hascii).trans h

theorem lstrip_visible {c : Char} (h : C.space c = false) (rest : Text) : lstrip C (c :: rest) = c :: rest :=
  List.dropWhile_cons_of_neg (by simp [h])

section Headers

variable {word : String} {c : Char} {more rest : Text}

theorem file_header_read (hword : word.toList = c :: more) (hc : C.space c = false) :
    file_header C word ("***".toList ++ (' ' :: (word.toList ++ (' ' :: ("File:".toList ++ rest))))) = some rest := by
  have hfile : lstrip C (' ' :: ("File:".toList ++ rest)) = "File:".toList ++ rest := by
    rw [lstrip_space]
    exact lstrip_visible (space_visible (by decide) (by decide)) _
  have hstart : lstrip C (' ' :: (word.toList ++ (' ' :: ("File:".toList ++ rest)))) = word.toList ++ (' ' :: ("File:".toList ++ rest)) := by
    rw [lstrip_space, hword]
    exact lstrip_visible hc _
  rw [file_header, after_word_append]
  show (do
    let rest ← after_word word (lstrip C (' ' :: (word.toList ++ (' ' :: ("File:".toList ++ rest)))))
    if rest.head?.any C.space then after_word "File:" (lstrip C rest) else none) = _
  rw [hstart, after_word_append]
  show (if C.space ' ' = true then after_word "File:" (lstrip C (' ' :: ("File:".toList ++ rest))) else none) = _
  rw [if_pos (space_space C), hfile, after_word_append]

/-- The header of another operation. -/
theorem file_header_other {word' : String} (hword : word.toList = c :: more) (hc : C.space c = false)
    (hother : word'.toList.head? ≠ some c) (hsome : word'.toList ≠ []) :
    file_header C word' ("***".toList ++ (' ' :: (word.toList ++ rest))) = none := by
  have hstart : lstrip C (' ' :: (word.toList ++ rest)) = word.toList ++ rest := by
    rw [lstrip_space, hword]
    exact lstrip_visible hc _
  have hno : after_word word' (lstrip C (' ' :: (word.toList ++ rest))) = none := by
    refine after_word_none fun hstarts => hother ?_
    obtain ⟨tail, htail⟩ := hstarts
    rw [hstart, hword] at htail
    cases hw : word'.toList with
    | nil => exact absurd hw hsome
    | cons d word' =>
      rw [hw] at htail
      exact congrArg some (List.cons.inj htail).1
  rw [file_header, after_word_append]
  show (do
    let rest ← after_word word' (lstrip C (' ' :: (word.toList ++ rest)))
    if rest.head?.any C.space then after_word "File:" (lstrip C rest) else none) = _
  rw [hno]
  rfl

/-- A line of a hunk opens no operation. -/
theorem file_header_none (hc : c ≠ '*') (word : String) (rest : Text) : file_header C word (c :: rest) = none := by
  have hno : after_word "***" (c :: rest) = none := by
    refine after_word_none fun ⟨tail, htail⟩ => hc ?_
    exact (List.cons.inj htail).1.symm
  rw [file_header, hno]
  rfl

end Headers

theorem strip_length (C : CharClass) (text : Text) : (strip C text).length ≤ text.length := by
  unfold strip rstrip lstrip
  rw [List.length_reverse]
  have hright := (List.dropWhile_sublist C.space (l := (text.dropWhile C.space).reverse)).length_le
  have hleft := (List.dropWhile_sublist C.space (l := text)).length_le
  rw [List.length_reverse] at hright
  exact Nat.le_trans hright hleft

theorem file_name_space {path : Text} (h : Trimmed C path) : file_name C (' ' :: path) = some path := by
  have hstrip : strip C (' ' :: path) = path := by
    rw [strip, lstrip_space]
    exact h.strip
  rw [file_name, if_neg (List.cons_ne_nil _ _), hstrip]

/-- What is read of a hint. -/
theorem hint_read {hint : Text} (h : Trimmed C hint) : ∃ shown,
    hint_match C ("@@ ".toList ++ hint ++ " @@".toList) = some shown ∧ (shown = hint ↔ ¬"@@".toList <:+: hint.tail) := by
  obtain ⟨n, hn, found, hgroup, hwhole, -⟩ := lazy_word (C := C) "@@" [] some rfl (space_visible (by decide) (by decide))
    (by decide) h fun _ _ => rfl
  rw [show (fun text => (after_word "@@" (lstrip C text)).bind some) = fun text => after_word "@@" (lstrip C text) from
    funext fun _ => Option.bind_fun_some _, List.append_nil] at hgroup
  have hfirst : ∃ c, (hint ++ (' ' :: "@@".toList)).head? = some c ∧ C.space c = false := by
    obtain ⟨c, hc, hspace⟩ := h.first
    exact ⟨c, by rw [List.head?_append, hc]; rfl, hspace⟩
  have hread := spaced_space hfirst hgroup
  refine ⟨hint.take (n + 1), ?_, ?_⟩
  · have hline : "@@ ".toList ++ hint ++ " @@".toList = "@@".toList ++ (' ' :: (hint ++ (' ' :: "@@".toList))) := by
      rw [List.append_assoc]
      rfl
    rw [hint_match, hline, after_word_append]
    show (spaced C (lazy_group fun text => after_word "@@" (lstrip C text)) (' ' :: (hint ++ (' ' :: "@@".toList)))).bind
      (fun found => some found.1) = _
    rw [hread]
    rfl
  · rw [← hwhole]
    rw [List.take_eq_self_iff]
    omega

/-- What is read of the paths of a move. -/
theorem move_read {path new_path : Text} (h : Trimmed C path) (hnew : Trimmed C new_path) : ∃ shown shown_new,
    move_match C ("*** Move File: ".toList ++ path ++ " -> ".toList ++ new_path) = some (shown, shown_new) ∧
      (shown = path ∧ shown_new = new_path ↔ ¬"->".toList <:+: path.tail) := by
  have hsuffix (rest : Text) (hrest : ' ' :: new_path <:+ rest) : (file_name C rest).isSome = true := by
    rw [file_name, if_neg]
    · rfl
    · rintro rfl
      exact absurd (List.suffix_nil.mp hrest) (List.cons_ne_nil _ _)
  obtain ⟨n, hn, found, hgroup, hwhole, hlast⟩ := lazy_word (C := C) "->" (' ' :: new_path) (file_name C) rfl
    (space_visible (by decide) (by decide)) (by decide) h hsuffix
  have hfirst : ∃ c, (path ++ (' ' :: "->".toList ++ (' ' :: new_path))).head? = some c ∧ C.space c = false := by
    obtain ⟨c, hc, hspace⟩ := h.first
    exact ⟨c, by rw [List.head?_append, hc]; rfl, hspace⟩
  have hread := spaced_space hfirst hgroup
  refine ⟨strip C (path.take (n + 1)), found, ?_, ?_⟩
  · have hline : "*** Move File: ".toList ++ path ++ " -> ".toList ++ new_path = "***".toList ++ (' ' :: ("Move".toList ++
        (' ' :: ("File:".toList ++ (' ' :: (path ++ (' ' :: "->".toList ++ (' ' :: new_path)))))))) := by
      simp
    rw [move_match, hline, file_header_read rfl (space_visible (by decide) (by decide))]
    show (spaced C (lazy_group (arrow C)) (' ' :: (path ++ (' ' :: "->".toList ++ (' ' :: new_path))))).bind
      (fun found => some (strip C found.1, found.2)) = _
    rw [show lazy_group (arrow C) = lazy_group fun text => (after_word "->" (lstrip C text)).bind (file_name C) from rfl, hread]
    rfl
  · rw [← hwhole]
    constructor
    · rintro ⟨hshown, -⟩
      have hlength := congrArg List.length hshown
      have hshort := strip_length C (path.take (n + 1))
      rw [List.length_take] at hshort
      omega
    · intro hall
      have hfound := hlast hall
      rw [file_name_space hnew] at hfound
      rw [hall, List.take_length, h.strip]
      exact ⟨rfl, (Option.some.inj hfound).symm⟩

/-! ### Lines of a hunk -/

theorem step_hunk {state : Parsing} {op : PatchOperation} (hop : state.current_op = some op) {c : Char} (hc : c ≠ '*') (rest : Text) :
    state.step C (c :: rest) =
      if "@@".toList.isPrefixOf (c :: rest) then
        { state with current_op := some (op.close state.current_hunk), current_hunk := some { context_hint := hint_match C (c :: rest) } }
      else { state with current_hunk := some { state.current_hunk.getD {} with
        lines := (state.current_hunk.getD {}).lines ++ (hunk_line (c :: rest)).toList } } := by
  have hmove : move_match C (c :: rest) = none := by
    rw [move_match, file_header_none hc]
    rfl
  have hother (word : String) : (file_header C word (c :: rest)).bind (file_name C) = none := by
    rw [file_header_none hc]
    rfl
  rw [Parsing.step, hother, hother, hother, hmove, hop]
  rfl

theorem line_char (kind : LineKind) : kind.char ≠ '*' ∧ kind.char ≠ '@' := by
  cases kind <;> decide

/-- A line is added to the current hunk. -/
theorem step_line {state : Parsing} {op : PatchOperation} (hop : state.current_op = some op) (line : HunkLine) :
    state.step C (serialize_line line) = { state with
      current_hunk := some { state.current_hunk.getD {} with lines := (state.current_hunk.getD {}).lines ++ [line] } } := by
  obtain ⟨kind, content⟩ := line
  have hread : hunk_line (kind.char :: content) = some ⟨kind, content⟩ := by cases kind <;> rfl
  have hmark : "@@".toList.isPrefixOf (kind.char :: content) = false := by cases kind <;> rfl
  rw [serialize_line, step_hunk hop (line_char kind).1, hmark, if_neg (by decide), hread]
  rfl

/-- The current hunk with more lines; without any there may be no hunk yet. -/
def more_lines (hunk : Option Hunk) (lines : List HunkLine) : Option Hunk :=
  if lines = [] then hunk else some { hunk.getD {} with lines := (hunk.getD {}).lines ++ lines }

theorem steps_lines {state : Parsing} {op : PatchOperation} (hop : state.current_op = some op) (lines : List HunkLine) :
    (lines.map serialize_line).foldl (Parsing.step C) state =
      { state with current_hunk := more_lines state.current_hunk lines } := by
  induction lines generalizing state with
  | nil => rfl
  | cons line lines ih =>
    rw [List.map_cons, List.foldl_cons, step_line hop, ih (by exact hop)]
    unfold more_lines
    by_cases hlines : lines = []
    · simp [hlines]
    · simp [hlines]

/-- What is read of a hunk that stands after its header line. -/
def shown_hunk (C : CharClass) (hunk : Hunk) : Hunk :=
  { hunk with context_hint := hunk.context_hint.bind fun hint => hint_match C ("@@ ".toList ++ hint ++ " @@".toList) }

/-- What is read of hunks. -/
def shown_hunks (C : CharClass) (hunks : List Hunk) : List Hunk :=
  (hunks.filter fun hunk => hunk.lines ≠ []).map (shown_hunk C)

/-- The header line of a hunk closes the hunk before it. -/
theorem step_header {state : Parsing} {op : PatchOperation} (hop : state.current_op = some op) (hunk : Hunk) :
    (hunk_header false hunk).foldl (Parsing.step C) state =
      { state with current_op := some (op.close state.current_hunk), current_hunk := some { context_hint := (shown_hunk C hunk).context_hint } } := by
  unfold hunk_header shown_hunk
  cases hunk.context_hint with
  | none =>
    show state.step C ('@' :: ['@']) = _
    rw [step_hunk hop (by decide)]
    rfl
  | some hint =>
    show state.step C ('@' :: ('@' :: ' ' :: hint ++ " @@".toList)) = _
    rw [step_hunk hop (by decide)]
    rfl

/-- The operation a state would save. -/
def Parsing.Holds (state : Parsing) (before : List PatchOperation) (op : PatchOperation) : Prop :=
  state.operations = before ∧ ∃ current, state.current_op = some current ∧ current.close state.current_hunk = op

theorem steps_hunk {state : Parsing} {before : List PatchOperation} {op : PatchOperation} (h : state.Holds before op) (hunk : Hunk) :
    ((serialize_hunk false hunk).foldl (Parsing.step C) state).Holds before
      { op with hunks := op.hunks ++ shown_hunks C [hunk] } := by
  obtain ⟨hbefore, current, hcurrent, rfl⟩ := h
  rw [serialize_hunk, List.foldl_append, step_header hcurrent, steps_lines rfl]
  refine ⟨hbefore, _, rfl, ?_⟩
  unfold more_lines shown_hunks
  by_cases hlines : hunk.lines = []
  · simp [hlines, PatchOperation.close]
  · simp [hlines, PatchOperation.close, shown_hunk]

theorem steps_hunks {state : Parsing} {before : List PatchOperation} {op : PatchOperation} (h : state.Holds before op) (hunks : List Hunk) :
    ((hunks.flatMap (serialize_hunk false)).foldl (Parsing.step C) state).Holds before
      { op with hunks := op.hunks ++ shown_hunks C hunks } := by
  induction hunks generalizing state op with
  | nil => simpa [shown_hunks] using h
  | cons hunk hunks ih =>
    rw [List.flatMap_cons, List.foldl_append]
    have hrest := ih (steps_hunk (C := C) h hunk)
    have hsplit : shown_hunks C (hunk :: hunks) = shown_hunks C [hunk] ++ shown_hunks C hunks := by
      unfold shown_hunks
      rw [← List.map_append, ← List.filter_append, List.singleton_append]
    rw [hsplit, ← List.append_assoc]
    exact hrest

/-- The hunks of an operation, from right behind its own header. -/
theorem steps_all_hunks {state : Parsing} {op : PatchOperation} (hop : state.current_op = some op)
    (hempty : state.current_hunk = none ∨ state.current_hunk = some {}) (hunks : List Hunk) :
    ((serialize_hunks hunks).foldl (Parsing.step C) state).Holds state.operations
      { op with hunks := op.hunks ++ shown_hunks C hunks } := by
  have hholds : state.Holds state.operations op := ⟨rfl, op, hop, by rcases hempty with h | h <;> rw [h] <;> rfl⟩
  cases hunks with
  | nil => simpa [serialize_hunks, shown_hunks] using hholds
  | cons hunk hunks =>
    rw [serialize_hunks, List.foldl_append]
    have hsplit : shown_hunks C (hunk :: hunks) = shown_hunks C [hunk] ++ shown_hunks C hunks := by
      unfold shown_hunks
      rw [← List.map_append, ← List.filter_append, List.singleton_append]
    rw [hsplit, ← List.append_assoc]
    refine @steps_hunks C _ _ { op with hunks := op.hunks ++ shown_hunks C [hunk] } ?_ hunks
    cases hhint : hunk.context_hint with
    | some hint =>
      have hsame : serialize_hunk true hunk = serialize_hunk false hunk := by
        rw [serialize_hunk, serialize_hunk, hunk_header, hunk_header, hhint]
      rw [hsame]
      exact steps_hunk hholds hunk
    | none =>
      have hbare : serialize_hunk true hunk = hunk.lines.map serialize_line := by
        rw [serialize_hunk, hunk_header, hhint]
        rfl
      rw [hbare, steps_lines hop]
      refine ⟨rfl, op, hop, ?_⟩
      unfold more_lines shown_hunks
      by_cases hlines : hunk.lines = []
      · rcases hempty with h | h <;> simp [hlines, h, PatchOperation.close]
      · rcases hempty with h | h <;> simp [hlines, h, PatchOperation.close, shown_hunk, hhint]

/-! ### Operations -/

/-- An operation as it can be written down. -/
structure PatchOperation.Valid (C : CharClass) (op : PatchOperation) : Prop where
  path : Trimmed C op.file_path
  content : op.content = none
  new_path : if op.operation = .move then ∃ new_path, op.new_path = some new_path ∧ Trimmed C new_path else op.new_path = none
  hunks : op.operation = .delete ∨ op.operation = .move → op.hunks = []
  hints : ∀ hunk ∈ op.hunks, ∀ hint, hunk.context_hint = some hint → Trimmed C hint
  lines : ∀ hunk ∈ op.hunks, ∀ line ∈ hunk.lines, '\n' ∉ line.content

/-- What is read of an operation. -/
def shown_operation (C : CharClass) (op : PatchOperation) : PatchOperation :=
  match op.operation with
  | .move =>
    match move_match C (operation_header op) with
    | some (path, new_path) => { op with file_path := path, new_path := some new_path }
    | none => op
  | _ => { op with hunks := shown_hunks C op.hunks }

theorem header_other {word word' : String} {c : Char} {more : Text} (hword : word.toList = c :: more) (hc : C.space c = false)
    (hother : word'.toList.head? ≠ some c) (hsome : word'.toList ≠ []) (rest : Text) :
    (file_header C word' ("***".toList ++ (' ' :: (word.toList ++ rest)))).bind (file_name C) = none := by
  rw [file_header_other hword hc hother hsome]
  rfl

theorem header_path {word : String} {c : Char} {more path : Text} (hword : word.toList = c :: more) (hc : C.space c = false)
    (hpath : Trimmed C path) :
    (file_header C word ("***".toList ++ (' ' :: (word.toList ++ (' ' :: ("File:".toList ++ (' ' :: path))))))).bind (file_name C) =
      some path := by
  rw [file_header_read hword hc]
  exact file_name_space hpath

/-- A written operation is read up to what the format leaves out. -/
theorem steps_operation {state : Parsing} {op : PatchOperation} (h : op.Valid C) :
    ((serialize_operation op).foldl (Parsing.step C) state).saved = state.saved ++ [shown_operation C op] := by
  obtain ⟨operation, path, new_path, hunks, content⟩ := op
  obtain ⟨hpath, hcontent, hnew, hhunks, -, -⟩ := h
  obtain rfl : content = none := hcontent
  have hvisible (c : Char) (hascii : c.val < 128) (hspace : CharClass.ascii.space c = false) : C.space c = false :=
    space_visible hascii hspace
  rw [serialize_operation, List.foldl_cons]
  cases operation with
  | update =>
    obtain rfl : new_path = none := hnew
    have hline : "*** Update File: ".toList ++ path =
        "***".toList ++ (' ' :: ("Update".toList ++ (' ' :: ("File:".toList ++ (' ' :: path))))) := by simp
    have hstep : state.step C ("*** Update File: ".toList ++ path) =
        { operations := state.saved, current_op := some { operation := .update, file_path := path } } := by
      rw [Parsing.step, hline, header_path rfl (hvisible 'U' (by decide) (by decide)) hpath]
    obtain ⟨hbefore, current, hcurrent, hclose⟩ := steps_all_hunks (C := C)
      (show (state.step C ("*** Update File: ".toList ++ path)).current_op = some _ by rw [hstep]) (by rw [hstep]; exact Or.inl rfl) hunks
    show Parsing.saved (List.foldl _ (state.step C ("*** Update File: ".toList ++ path)) _) = _
    rw [Parsing.saved, hcurrent]
    dsimp only
    rw [hclose, hbefore, hstep]
    rfl
  | add =>
    obtain rfl : new_path = none := hnew
    have hline : "*** Add File: ".toList ++ path =
        "***".toList ++ (' ' :: ("Add".toList ++ (' ' :: ("File:".toList ++ (' ' :: path))))) := by simp
    have hstep : state.step C ("*** Add File: ".toList ++ path) =
        { operations := state.saved, current_op := some { operation := .add, file_path := path }, current_hunk := some {} } := by
      rw [Parsing.step, hline, header_other rfl (hvisible 'A' (by decide) (by decide)) (by decide) (by decide),
        header_path rfl (hvisible 'A' (by decide) (by decide)) hpath]
    obtain ⟨hbefore, current, hcurrent, hclose⟩ := steps_all_hunks (C := C)
      (show (state.step C ("*** Add File: ".toList ++ path)).current_op = some _ by rw [hstep]) (by rw [hstep]; exact Or.inr rfl) hunks
    show Parsing.saved (List.foldl _ (state.step C ("*** Add File: ".toList ++ path)) _) = _
    rw [Parsing.saved, hcurrent]
    dsimp only
    rw [hclose, hbefore, hstep]
    rfl
  | delete =>
    obtain rfl : new_path = none := hnew
    obtain rfl : hunks = [] := hhunks (Or.inl rfl)
    have hline : "*** Delete File: ".toList ++ path =
        "***".toList ++ (' ' :: ("Delete".toList ++ (' ' :: ("File:".toList ++ (' ' :: path))))) := by simp
    have hvisibleD := hvisible 'D' (by decide) (by decide)
    show Parsing.saved (state.step C ("*** Delete File: ".toList ++ path)) = _
    rw [Parsing.step, hline, header_other rfl hvisibleD (by decide) (by decide), header_other rfl hvisibleD (by decide) (by decide),
      header_path rfl hvisibleD hpath]
    rfl
  | move =>
    obtain ⟨new, rfl, hnew⟩ : ∃ new, new_path = some new ∧ Trimmed C new := hnew
    obtain rfl : hunks = [] := hhunks (Or.inr rfl)
    obtain ⟨shown, shown_new, hread, -⟩ := move_read hpath hnew
    have hline : "*** Move File: ".toList ++ path ++ " -> ".toList ++ new =
        "***".toList ++ (' ' :: ("Move".toList ++ (" File: ".toList ++ path ++ " -> ".toList ++ new))) := by simp
    have hother (word : String) (hword : word.toList.head? ≠ some 'M') (hsome : word.toList ≠ []) :
        (file_header C word ("*** Move File: ".toList ++ path ++ " -> ".toList ++ new)).bind (file_name C) = none := by
      rw [hline]
      exact header_other rfl (hvisible 'M' (by decide) (by decide)) hword hsome _
    show Parsing.saved (state.step C ("*** Move File: ".toList ++ path ++ " -> ".toList ++ new)) = _
    rw [Parsing.step, hother "Update" (by decide) (by decide), hother "Add" (by decide) (by decide),
      hother "Delete" (by decide) (by decide), hread, shown_operation]
    show _ = state.saved ++ [match move_match C ("*** Move File: ".toList ++ path ++ " -> ".toList ++ new) with
      | some (path, new_path) => _
      | none => _]
    rw [hread]
    rfl

/-! ### Markers -/

def markers : List String := ["*** Begin Patch", "***Begin Patch", "*** End Patch", "***End Patch"]

/-- No marker stands in a text. -/
def MarkerFree (text : Text) : Prop := ∀ marker ∈ markers, ¬marker.toList <:+: text

/-- Two texts without a marker, when none stands across their border. -/
theorem MarkerFree.append {a b : Text} (ha : MarkerFree a) (hb : MarkerFree b)
    (hborder : ∀ marker ∈ markers, ∀ n < marker.toList.length, 0 < n → marker.toList.take n <:+ a → ¬marker.toList.drop n <+: b) :
    MarkerFree (a ++ b) := by
  intro marker hmarker hinfix
  rcases List.infix_append_iff_ne_nil.mp hinfix with h | h | ⟨left, right, hleft, hright, hsplit, hsuffix, hstarts⟩
  · exact ha marker hmarker h
  · exact hb marker hmarker h
  · have hlength := congrArg List.length hsplit
    rw [List.length_append] at hlength
    have hpos := List.length_pos_iff.mpr hleft
    have hmore := List.length_pos_iff.mpr hright
    refine hborder marker hmarker left.length (by omega) hpos ?_ ?_
    · rw [hsplit, List.take_left]
      exact hsuffix
    · rw [hsplit, List.drop_left]
      exact hstarts

/-- A text of the format in front. -/
theorem MarkerFree.behind {a b : Text} (hb : MarkerFree b)
    (ha : ∀ marker ∈ markers, ¬marker.toList <:+: a ∧ ∀ n < marker.toList.length, 0 < n → ¬marker.toList.take n <:+ a) :
    MarkerFree (a ++ b) :=
  .append (fun marker hmarker => (ha marker hmarker).1) hb fun marker hmarker n hn hpos hsuffix _ => (ha marker hmarker).2 n hn hpos hsuffix

/-- A text of the format behind, which starts with two characters that no marker goes on with. -/
theorem MarkerFree.before {a b : Text} (start : Text) (ha : MarkerFree a) (hb : MarkerFree b) (hstart : b.take 2 = start)
    (hnone : ∀ marker ∈ markers, ∀ n < marker.toList.length, 0 < n → ¬(marker.toList.drop n).take 2 <+: start) :
    MarkerFree (a ++ b) :=
  .append ha hb fun marker hmarker n hn hpos _ hgoes => hnone marker hmarker n hn hpos (hstart ▸ List.IsPrefix.take hgoes 2)

/-- No marker stands in what an operation says. -/
structure PatchOperation.MarkerFree (op : PatchOperation) : Prop where
  path : Patches.MarkerFree op.file_path
  new_path : ∀ path, op.new_path = some path → Patches.MarkerFree path
  hints : ∀ hunk ∈ op.hunks, ∀ hint, hunk.context_hint = some hint → Patches.MarkerFree hint
  lines : ∀ hunk ∈ op.hunks, ∀ line ∈ hunk.lines, Patches.MarkerFree line.content

/-- A line that the format can hold. -/
structure PlainLine (line : Text) : Prop where
  free : MarkerFree line
  single : '\n' ∉ line

theorem plain_header {op : PatchOperation} (h : op.Valid C) (hfree : op.MarkerFree) : PlainLine (operation_header op) := by
  obtain ⟨operation, path, new_path, hunks, content⟩ := op
  have hpath := hfree.path
  have hsingle := h.path.single_line
  cases operation with
  | add => exact ⟨hpath.behind (by decide +kernel), by simpa [operation_header] using hsingle⟩
  | update => exact ⟨hpath.behind (by decide +kernel), by simpa [operation_header] using hsingle⟩
  | delete => exact ⟨hpath.behind (by decide +kernel), by simpa [operation_header] using hsingle⟩
  | move =>
    obtain ⟨new, rfl, hnew⟩ : ∃ new, new_path = some new ∧ Trimmed C new := h.new_path
    refine ⟨?_, by simpa [operation_header] using ⟨hsingle, hnew.single_line⟩⟩
    show MarkerFree ("*** Move File: ".toList ++ path ++ " -> ".toList ++ new)
    have hfront : MarkerFree ("*** Move File: ".toList ++ path) := hpath.behind (by decide +kernel)
    have hback : MarkerFree (" -> ".toList ++ new) := (hfree.new_path new rfl).behind (by decide +kernel)
    rw [List.append_assoc]
    exact MarkerFree.before " -".toList hfront hback rfl (by decide +kernel)

theorem plain_hunk {op : PatchOperation} (h : op.Valid C) (hfree : op.MarkerFree) {hunk : Hunk} (hhunk : hunk ∈ op.hunks)
    (first : Bool) : ∀ line ∈ serialize_hunk first hunk, PlainLine line := by
  intro line hline
  rcases List.mem_append.mp hline with hline | hline
  · unfold hunk_header at hline
    cases hhint : hunk.context_hint with
    | some hint =>
      rw [hhint] at hline
      obtain rfl := List.mem_singleton.mp hline
      have hfront : MarkerFree ("@@ ".toList ++ hint) := (hfree.hints hunk hhunk hint hhint).behind (by decide +kernel)
      have hback : MarkerFree " @@".toList := by unfold MarkerFree; decide +kernel
      refine ⟨MarkerFree.before " @".toList hfront hback rfl (by decide +kernel), ?_⟩
      simpa using (h.hints hunk hhunk hint hhint).single_line
    | none =>
      rw [hhint] at hline
      cases first with
      | true => cases hline
      | false =>
        obtain rfl := List.mem_singleton.mp hline
        exact ⟨by unfold MarkerFree; decide +kernel, by decide⟩
  · obtain ⟨line, hmem, rfl⟩ := List.mem_map.mp hline
    have hfreeline := hfree.lines hunk hhunk line hmem
    have hsingle := h.lines hunk hhunk line hmem
    obtain ⟨kind, content⟩ := line
    constructor
    · show MarkerFree ([kind.char] ++ content)
      cases kind <;> exact hfreeline.behind (by decide +kernel)
    · rw [serialize_line, List.mem_cons, not_or]
      exact ⟨by cases kind <;> simp [LineKind.char], hsingle⟩

/-! ### Patches -/

theorem plain_operation {op : PatchOperation} (h : op.Valid C) (hfree : op.MarkerFree) :
    ∀ line ∈ serialize_operation op, PlainLine line := by
  intro line hline
  rcases List.mem_cons.mp hline with rfl | hline
  · exact plain_header h hfree
  · have hhunks : ∀ hunk ∈ op.hunks, ∀ first, ∀ line ∈ serialize_hunk first hunk, PlainLine line :=
      fun hunk hhunk first => plain_hunk h hfree hhunk first
    cases hcases : op.hunks with
    | nil =>
      rw [hcases] at hline
      cases hline
    | cons hunk hunks =>
      rw [hcases] at hline hhunks
      rcases List.mem_append.mp hline with hline | hline
      · exact hhunks hunk (List.mem_cons_self ..) true line hline
      · obtain ⟨other, hother, hline⟩ := List.mem_flatMap.mp hline
        exact hhunks other (List.mem_cons_of_mem _ hother) false line hline

theorem not_contains {line : Text} (h : MarkerFree line) {marker : String} (hmarker : marker ∈ markers) : contains marker line = false := by
  rw [contains, decide_eq_false_iff_not]
  exact h marker hmarker

theorem boundaries_plain {body : List Text} (hbody : ∀ line ∈ body, MarkerFree line) (i : Nat) (start : Option Nat) :
    boundaries i start (body ++ ["*** End Patch".toList]) = (start, some (i + body.length)) := by
  induction body generalizing i with
  | nil =>
    have hends : ends_patch "*** End Patch".toList = true := by decide +kernel
    have hbegins : begins_patch "*** End Patch".toList = false := by decide +kernel
    rw [List.nil_append, boundaries, hbegins, if_neg (by decide), hends, if_pos rfl, List.length_nil, Nat.add_zero]
  | cons line body ih =>
    obtain ⟨hline, hrest⟩ := List.forall_mem_cons.mp hbody
    have hbegins : begins_patch line = false := by
      rw [begins_patch, not_contains hline (by decide), not_contains hline (by decide)]
      rfl
    have hends : ends_patch line = false := by
      rw [ends_patch, not_contains hline (by decide), not_contains hline (by decide)]
      rfl
    rw [List.cons_append, boundaries, hbegins, if_neg (by decide), hends, if_neg (by decide), ih hrest, List.length_cons]
    rw [show i + 1 + body.length = i + (body.length + 1) by omega]

theorem patch_body_plain {body : List Text} (hbody : ∀ line ∈ body, MarkerFree line) :
    patch_body (["*** Begin Patch".toList] ++ body ++ ["*** End Patch".toList]) = body := by
  have hbegins : begins_patch "*** Begin Patch".toList = true := by decide +kernel
  have hbounds : boundaries 0 none (["*** Begin Patch".toList] ++ body ++ ["*** End Patch".toList]) = (some 0, some (1 + body.length)) := by
    rw [List.append_assoc, List.singleton_append, boundaries, hbegins, if_pos rfl]
    exact boundaries_plain hbody 1 (some 0)
  rw [patch_body, hbounds]
  show List.drop 1 (List.take (1 + body.length) (["*** Begin Patch".toList] ++ body ++ ["*** End Patch".toList])) = body
  have hlength : (["*** Begin Patch".toList] ++ body).length = 1 + body.length := by rw [List.length_append, List.length_singleton]
  rw [List.take_append_of_le_length hlength.ge, List.take_of_length_le hlength.le]
  rfl

/-- **What is read of a patch** is what is read of its operations. -/
theorem parse_serialize {operations : List PatchOperation} (hvalid : ∀ op ∈ operations, op.Valid C)
    (hfree : ∀ op ∈ operations, op.MarkerFree) :
    parse_v4a_patch C (serialize_v4a_patch operations) = (operations.map (shown_operation C), none) := by
  have hplain (line : Text) (hline : line ∈ operations.flatMap serialize_operation) : PlainLine line := by
    obtain ⟨op, hop, hline⟩ := List.mem_flatMap.mp hline
    exact plain_operation (hvalid op hop) (hfree op hop) line hline
  have hlines : (serialize_v4a_patch operations).splitOn '\n' =
      ["*** Begin Patch".toList] ++ operations.flatMap serialize_operation ++ ["*** End Patch".toList] := by
    refine List.splitOn_intercalate '\n' (fun line hline => ?_) (by simp)
    rcases List.mem_append.mp hline with hline | hline
    · rcases List.mem_append.mp hline with hline | hline
      · obtain rfl := List.mem_singleton.mp hline
        decide
      · exact (hplain line hline).single
    · obtain rfl := List.mem_singleton.mp hline
      decide
  have hrun (state : Parsing) : ((operations.flatMap serialize_operation).foldl (Parsing.step C) state).saved =
      state.saved ++ operations.map (shown_operation C) := by
    clear hplain hlines hfree
    induction operations generalizing state with
    | nil => simp
    | cons op operations ih =>
      obtain ⟨hop, hrest⟩ := List.forall_mem_cons.mp hvalid
      rw [List.flatMap_cons, List.foldl_append, ih hrest, steps_operation hop, List.map_cons, List.append_assoc]
      rfl
  rw [parse_v4a_patch, hlines, patch_body_plain fun line hline => (hplain line hline).free, hrun]
  rfl

/-- An operation that the format writes without loss. -/
structure PatchOperation.Readable (op : PatchOperation) : Prop where
  lines : ∀ hunk ∈ op.hunks, hunk.lines ≠ []
  hints : ∀ hunk ∈ op.hunks, ∀ hint, hunk.context_hint = some hint → ¬"@@".toList <:+: hint.tail
  source : op.operation = .move → ¬"->".toList <:+: op.file_path.tail

theorem shown_hunks_iff {op : PatchOperation} (h : op.Valid C) : shown_hunks C op.hunks = op.hunks ↔
    (∀ hunk ∈ op.hunks, hunk.lines ≠ []) ∧
      ∀ hunk ∈ op.hunks, ∀ hint, hunk.context_hint = some hint → ¬"@@".toList <:+: hint.tail := by
  have hshown (hunk : Hunk) (hhunk : hunk ∈ op.hunks) : shown_hunk C hunk = hunk ↔
      ∀ hint, hunk.context_hint = some hint → ¬"@@".toList <:+: hint.tail := by
    obtain ⟨context_hint, lines⟩ := hunk
    unfold shown_hunk
    cases context_hint with
    | none => simp
    | some hint =>
      obtain ⟨shown, hread, hsame⟩ := hint_read (h.hints _ hhunk hint rfl)
      simp only [Option.bind_some, hread, Hunk.mk.injEq, Option.some.injEq, and_true, forall_eq']
      exact hsame
  unfold shown_hunks
  constructor
  · intro heq
    have hlength := congrArg List.length heq
    rw [List.length_map] at hlength
    have hall := List.length_filter_eq_length_iff.mp hlength
    rw [List.filter_eq_self.mpr hall] at heq
    refine ⟨fun hunk hhunk => of_decide_eq_true (hall hunk hhunk), fun hunk hhunk => (hshown hunk hhunk).mp ?_⟩
    exact List.map_inj_left.mp (heq.trans (List.map_id _).symm) hunk hhunk
  · rintro ⟨hlines, hhints⟩
    rw [List.filter_eq_self.mpr fun hunk hhunk => decide_eq_true (hlines hunk hhunk)]
    exact (List.map_congr_left fun hunk hhunk => (hshown hunk hhunk).mpr (hhints hunk hhunk)).trans (List.map_id _)

theorem shown_operation_iff {op : PatchOperation} (h : op.Valid C) : shown_operation C op = op ↔ op.Readable := by
  have hhunks := shown_hunks_iff h
  have hsplit : op.Readable ↔ ((∀ hunk ∈ op.hunks, hunk.lines ≠ []) ∧
      ∀ hunk ∈ op.hunks, ∀ hint, hunk.context_hint = some hint → ¬"@@".toList <:+: hint.tail) ∧
      (op.operation = .move → ¬"->".toList <:+: op.file_path.tail) :=
    ⟨fun hop => ⟨⟨hop.lines, hop.hints⟩, hop.source⟩, fun ⟨⟨hlines, hhints⟩, hsource⟩ => ⟨hlines, hhints, hsource⟩⟩
  rw [hsplit, ← hhunks]
  obtain ⟨operation, path, new_path, hunks, content⟩ := op
  unfold shown_operation
  cases operation with
  | add => simp
  | update => simp
  | delete => simp
  | move =>
    obtain ⟨new, rfl, hnew⟩ : ∃ new, new_path = some new ∧ Trimmed C new := h.new_path
    obtain rfl : hunks = [] := h.hunks (Or.inr rfl)
    obtain ⟨shown, shown_new, hread, hsame⟩ := move_read h.path hnew
    have hheader : operation_header ⟨.move, path, some new, [], content⟩ = "*** Move File: ".toList ++ path ++ " -> ".toList ++ new := rfl
    rw [hheader, hread]
    simpa [shown_hunks] using hsame

/-- **Operations are read back as they were written** just when each is readable. -/
theorem patch_round_trip {operations : List PatchOperation} (hvalid : ∀ op ∈ operations, op.Valid C)
    (hfree : ∀ op ∈ operations, op.MarkerFree) :
    parse_v4a_patch C (serialize_v4a_patch operations) = (operations, none) ↔ ∀ op ∈ operations, op.Readable := by
  rw [parse_serialize hvalid hfree, Prod.mk.injEq, eq_self_iff_true, and_true]
  constructor
  · intro heq op hop
    exact (shown_operation_iff (hvalid op hop)).mp (List.map_inj_left.mp (heq.trans (List.map_id _).symm) op hop)
  · intro hreadable
    exact (List.map_congr_left fun op hop => (shown_operation_iff (hvalid op hop)).mpr (hreadable op hop)).trans (List.map_id _)

/-- Contents that look like a header, a hint and an empty line are read back. -/
theorem look_alikes_read_back :
    parse_v4a_patch .ascii (serialize_v4a_patch [
      { operation := .update, file_path := "a b".toList, hunks := [⟨some "f".toList, [⟨.context, "*** Add File: c".toList⟩, ⟨.added, []⟩]⟩] }]) =
    ([{ operation := .update, file_path := "a b".toList, hunks := [⟨some "f".toList, [⟨.context, "*** Add File: c".toList⟩, ⟨.added, []⟩]⟩] }], none) := by
  refine (patch_round_trip ?_ ?_).mpr ?_
  · rintro op hop
    obtain rfl := List.mem_singleton.mp hop
    refine ⟨Trimmed.of_ends (by decide) (by decide) (by decide), rfl, rfl, by decide, ?_, by decide⟩
    rintro hunk hhunk hint hhint
    obtain rfl := List.mem_singleton.mp hhunk
    obtain rfl := Option.some.inj hhint
    exact Trimmed.of_ends (by decide) (by decide) (by decide)
  · rintro op hop
    obtain rfl := List.mem_singleton.mp hop
    refine ⟨by unfold MarkerFree; decide +kernel, by rintro _ ⟨⟩, ?_, ?_⟩
    · rintro hunk hhunk hint hhint
      obtain rfl := List.mem_singleton.mp hhunk
      obtain rfl := Option.some.inj hhint
      unfold MarkerFree
      decide +kernel
    · unfold MarkerFree
      decide +kernel
  · rintro op hop
    obtain rfl := List.mem_singleton.mp hop
    refine ⟨by decide, ?_, by rintro ⟨⟩⟩
    rintro hunk hhunk hint hhint
    obtain rfl := List.mem_singleton.mp hhunk
    obtain rfl := Option.some.inj hhint
    decide

/-- A move is read at its first arrow, so two lists of operations have one text; a hunk
without lines is dropped, and a content about the end of a patch ends it. -/
theorem operations_lost :
    serialize_v4a_patch [{ operation := .move, file_path := "a -> b".toList, new_path := some "c".toList }] =
      serialize_v4a_patch [{ operation := .move, file_path := "a".toList, new_path := some "b -> c".toList }] ∧
    parse_v4a_patch .ascii (serialize_v4a_patch [{ operation := .move, file_path := "a -> b".toList, new_path := some "c".toList }]) =
      ([{ operation := .move, file_path := "a".toList, new_path := some "b -> c".toList }], none) ∧
    parse_v4a_patch .ascii (serialize_v4a_patch [{ operation := .update, file_path := "a".toList, hunks := [⟨some "f".toList, []⟩] }]) =
      ([{ operation := .update, file_path := "a".toList }], none) ∧
    parse_v4a_patch .ascii (serialize_v4a_patch [
      { operation := .add, file_path := "a".toList, hunks := [⟨none, [⟨.added, "*** End Patch".toList⟩, ⟨.added, "b".toList⟩]⟩] }]) =
      ([{ operation := .add, file_path := "a".toList }], none) := by decide +kernel

end LeanFlow.Patches
