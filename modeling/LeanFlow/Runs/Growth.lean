import LeanFlow.Runs.Events
import Mathlib.Data.List.TakeWhile

/-! Reading a stream that grows: what was read stays, in front of what comes. -/
namespace LeanFlow.Runs
open General.Utf8 Source
variable {Event : Type} (C : CharClass) (D : Decoder Event)

def line_end (c : Char) : Bool := c = '\n' || c = '\r'

@[simp] theorem read_line_nil : read_line C D [] = some [] := if_pos rfl

theorem read_lines_blank (lines : List Text) : read_lines C D ([] :: lines) = read_lines C D lines := by
  rw [read_lines, read_line_nil, Option.bind_some]
  cases read_lines C D lines <;> rfl

theorem read_line_cases (line : Text) :
    read_line C D line = none ∨ read_line C D line = some [] ∨ ∃ event, read_line C D line = some [event] := by
  unfold read_line
  split
  · exact .inr (.inl rfl)
  · split
    · exact .inr (.inl rfl)
    · exact .inl rfl
    · exact .inr (.inl rfl)
    · exact .inr (.inr ⟨_, rfl⟩)

theorem read_lines_append (a b : List Text) :
    read_lines C D (a ++ b) = (read_lines C D a).bind fun records => (read_lines C D b).map (records ++ ·) := by
  induction a with
  | nil => cases h : read_lines C D b <;> simp [read_lines, h]
  | cons line a ih =>
    rw [List.cons_append, read_lines, read_lines, ih]
    cases read_line C D line with
    | none => rfl
    | some records => cases read_lines C D a <;> cases read_lines C D b <;> simp

/-! ### Line ends -/

/-- The lines of two texts read alike: they begin with the same one. -/
def Alike (translated text : Text) : Prop :=
  ∃ first a b, translated.splitOn '\n' = first :: a ∧ text.splitOnP line_end = first :: b ∧ read_lines C D a = read_lines C D b

theorem Alike.end {translated text : Text} (h : Alike C D translated text) {c : Char} (hc : line_end c = true) :
    Alike C D ('\n' :: translated) (c :: text) := by
  obtain ⟨first, a, b, ha, hb, hread⟩ := h
  refine ⟨[], first :: a, first :: b, ?_, ?_, ?_⟩
  · rw [List.splitOn_cons_eq_if_modifyHead, if_pos (by rfl), ha]
  · rw [List.splitOnP_cons_eq_if_modifyHead, if_pos hc, hb]
  · rw [read_lines, read_lines, hread]

theorem Alike.char {translated text : Text} (h : Alike C D translated text) {c : Char} (hc : line_end c = false) :
    Alike C D (c :: translated) (c :: text) := by
  obtain ⟨first, a, b, ha, hb, hread⟩ := h
  refine ⟨c :: first, a, b, ?_, ?_, hread⟩
  · have hne : ¬(c == '\n') = true := by
      rw [line_end, Bool.or_eq_false_iff] at hc
      exact fun h => of_decide_eq_false hc.1 (beq_iff_eq.mp h)
    rw [List.splitOn_cons_eq_if_modifyHead, if_neg hne, ha]
    rfl
  · rw [List.splitOnP_cons_eq_if_modifyHead, if_neg (by rw [hc]; exact Bool.false_ne_true), hb]
    rfl

theorem Alike.cons {translated text : Text} (h : Alike C D translated text) (c : Char) :
    Alike C D ((if c = '\r' then '\n' else c) :: translated) (c :: text) := by
  by_cases hr : c = '\r'
  · rw [if_pos hr]
    exact h.end C D (by rw [hr]; rfl)
  · rw [if_neg hr]
    by_cases hn : c = '\n'
    · rw [hn]
      exact h.end C D rfl
    · exact h.char C D (by simp [line_end, hr, hn])

/-- To a reader that skips blank lines, a carriage return is a line end of its own. -/
theorem alike_universal (text : Text) : Alike C D (universal_newlines text) text := by
  fun_induction universal_newlines text with
  | case1 => exact ⟨[], [], [], rfl, rfl, rfl⟩
  | case2 c => exact Alike.cons C D ⟨[], [], [], rfl, rfl, rfl⟩ c
  | case3 c d rest h ih =>
    obtain ⟨rfl, rfl⟩ := h
    obtain ⟨first, a, b, ha, hb, hread⟩ := ih
    refine ⟨[], first :: a, [] :: first :: b, ?_, ?_, ?_⟩
    · rw [List.splitOn_cons_eq_if_modifyHead, if_pos (by rfl), ha]
    · rw [List.splitOnP_cons_eq_if_modifyHead, if_pos (show line_end '\r' = true by rfl),
        List.splitOnP_cons_eq_if_modifyHead, if_pos (show line_end '\n' = true by rfl), hb]
    · rw [read_lines, read_lines_blank, read_lines, hread]
  | case4 c d rest h ih => exact ih.cons C D c

def records (bytes : Bytes) : Option (List Event) := read_lines C D ((decode bytes).splitOnP line_end)

theorem read_jsonl_eq (bytes : Bytes) : read_jsonl C D (some bytes) 0 = records C D bytes := by
  obtain ⟨first, a, b, ha, hb, hread⟩ := alike_universal C D (decode bytes)
  have hlines : read_lines C D ((universal_newlines (decode bytes)).splitOn '\n') = records C D bytes := by
    rw [records, ha, hb, read_lines, read_lines, hread]
  rw [read_jsonl, hlines]
  cases records C D bytes <;> rfl

/-! ### Growing -/

def ends_line (b : UInt8) : Bool := b = 10 || b = 13

/-- What follows the last line end. -/
def unterminated (bytes : Bytes) : Bytes := (bytes.reverse.takeWhile fun b => !ends_line b).reverse

def first_line (text : Text) : Text := text.takeWhile fun c => !line_end c

/-- A last line that reads as an event reads as that event when the bytes that follow
complete it. -/
def Settled (bytes more : Bytes) : Prop :=
  ∀ event, read_line C D (decode (unterminated bytes)) = some [event] →
    read_line C D (first_line (decode (unterminated bytes ++ more))) = some [event]

theorem records_line_end {b : UInt8} (hb : ends_line b = true) (before after : Bytes) :
    records C D (before ++ b :: after) =
      (records C D before).bind fun events => (records C D after).map (events ++ ·) := by
  have hb' : b = 10 ∨ b = 13 := by simpa [ends_line] using hb
  have hascii : b.toNat < 0x80 ∧ line_end (Char.ofNat b.toNat) = true := by
    rcases hb' with rfl | rfl <;> decide
  rw [records, decode_ascii hascii.1, List.splitOnP_append_cons _ _ hascii.2, read_lines_append]
  rfl

theorem splitOnP_first_line (text : Text) : ∃ rest, text.splitOnP line_end = first_line text :: rest := by
  induction text with
  | nil => exact ⟨[], rfl⟩
  | cons c text ih =>
    obtain ⟨rest, hrest⟩ := ih
    rw [List.splitOnP_cons_eq_if_modifyHead, first_line, List.takeWhile_cons]
    cases hc : line_end c with
    | true => exact ⟨text.splitOnP line_end, rfl⟩
    | false =>
      refine ⟨rest, ?_⟩
      rw [if_neg Bool.false_ne_true, hrest]
      rfl

theorem decode_unterminated (bytes : Bytes) : ∀ c ∈ decode (unterminated bytes), line_end c = false := by
  intro c hc
  rw [Bool.eq_false_iff]
  intro hend
  have hc' : c = '\n' ∨ c = '\r' := by simpa [line_end] using hend
  have hmem : UInt8.ofNat c.toNat ∈ unterminated bytes := mem_decode_ascii (by rcases hc' with rfl | rfl <;> decide) hc
  have hnot := List.mem_takeWhile_imp (List.mem_reverse.mp hmem)
  rcases hc' with rfl | rfl <;> exact absurd hnot (by decide)

theorem exists_unterminated (bytes : Bytes) : ∃ whole, bytes = whole ++ unterminated bytes ∧
    (whole = [] ∨ ∃ before b, ends_line b = true ∧ whole = before ++ [b]) := by
  refine ⟨(bytes.reverse.dropWhile fun b => !ends_line b).reverse, ?_, ?_⟩
  · rw [unterminated, ← List.reverse_append, List.takeWhile_append_dropWhile, List.reverse_reverse]
  · cases hdrop : bytes.reverse.dropWhile fun b => !ends_line b with
    | nil => exact .inl rfl
    | cons b before =>
      have hend := List.head?_dropWhile_not (fun b => !ends_line b) bytes.reverse
      rw [hdrop] at hend
      exact .inr ⟨before.reverse, b, by simpa using hend, List.reverse_cons⟩

/-- What is read of whole lines comes first. -/
theorem records_whole {whole : Bytes} (h : whole = [] ∨ ∃ before b, ends_line b = true ∧ whole = before ++ [b]) (after : Bytes) :
    records C D (whole ++ after) = (records C D whole).bind fun events => (records C D after).map (events ++ ·) := by
  have hnil : records C D [] = some [] := by simp [records, read_lines]
  rcases h with rfl | ⟨before, b, hb, rfl⟩
  · rw [hnil]
    cases hafter : records C D after <;> simp [hafter]
  · have hwhole : records C D (before ++ [b]) = records C D before := by
      rw [records_line_end C D hb, hnil]
      cases records C D before <;> simp
    rw [hwhole, List.append_assoc, List.singleton_append, records_line_end C D hb]

theorem records_unterminated (bytes : Bytes) :
    records C D (unterminated bytes) = read_line C D (decode (unterminated bytes)) := by
  rw [records, List.splitOnP_eq_singleton (decode_unterminated bytes), read_lines, read_lines]
  cases read_line C D (decode (unterminated bytes)) <;> simp

theorem records_grow {bytes more : Bytes} {events events' : List Event} (hsettled : Settled C D bytes more)
    (h : records C D bytes = some events) (h' : records C D (bytes ++ more) = some events') : events <+: events' := by
  obtain ⟨whole, hbytes, hwhole⟩ := exists_unterminated bytes
  rw [hbytes, List.append_assoc, records_whole C D hwhole] at h'
  rw [hbytes, records_whole C D hwhole, records_unterminated] at h
  obtain ⟨before, hbefore, hmap⟩ := Option.bind_eq_some_iff.mp h
  rw [hbefore, Option.bind_some] at h'
  obtain ⟨last, hlast, heq⟩ := Option.map_eq_some_iff.mp hmap
  obtain rfl := heq
  obtain ⟨later, hlater, rfl⟩ := Option.map_eq_some_iff.mp h'
  refine List.prefix_append_right_inj before |>.mpr ?_
  rcases read_line_cases C D (decode (unterminated bytes)) with hnone | hempty | ⟨event, hevent⟩
  · rw [hnone] at hlast
    cases hlast
  · rw [hempty] at hlast
    exact Option.some.inj hlast ▸ List.nil_prefix
  · -- the line completed goes first, and reads as the same event
    have hfirst := hsettled event hevent
    obtain ⟨rest, hrest⟩ := splitOnP_first_line (decode (unterminated bytes ++ more))
    rw [records, hrest, read_lines, hfirst, Option.bind_some] at hlater
    obtain ⟨others, -, rfl⟩ := Option.map_eq_some_iff.mp hlater
    rw [hevent] at hlast
    exact Option.some.inj hlast ▸ List.prefix_append [event] others

end LeanFlow.Runs
