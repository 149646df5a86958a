import LeanFlow.Source.Mask
import Mathlib.Data.List.Induction
import Mathlib.Data.List.TakeWhile

/-! What the scan of a part depends on.

The scan sees its context twice: in the mode it enters a part with, and in the
character that follows the part. A visible position was read in code mode
(`visible_step`); a part that ends in code or in a line comment depends on its
follower only when it ends in a visible `-` or `/` and a `-` follows
(`read_follower`); and behind a line comment, a line that is blank in code mode
anyway is read the same (`QuietLine.read_eq`). -/
namespace LeanFlow.Source
open General

/-- Masked text that ends in a character a following `-` turns into a comment. -/
def EndsOpen (mask : Text) : Prop := mask.getLast? = some '-' ∨ mask.getLast? = some '/'

instance (mask : Text) : Decidable (EndsOpen mask) := inferInstanceAs (Decidable (_ ∨ _))

/-- A position the mask leaves readable. -/
def Visible (c : Char) : Prop := c ≠ ' ' ∧ c ≠ '\n'

theorem blank_not_visible (c : Char) : ¬ Visible (blank c) := by
  intro h
  by_cases hc : c = '\n'
  · exact h.2 (by simp [blank, hc])
  · exact h.1 (by simp [blank, hc])

/-- Only code mode writes a visible character, and it writes what it read. -/
theorem visible_step {m : Mode} {c : Char} {next : Option Char}
    (h : Visible (scanChar m c next).1) : m = .code ∧ scanChar m c next = (c, .code) := by
  have hspace : ¬ Visible ' ' := fun h => h.1 rfl
  cases m with
  | code =>
    simp only [scanChar] at h ⊢
    split_ifs at h with h1 h2 h3 h4
    · exact absurd h hspace
    · exact absurd h hspace
    · exact absurd h hspace
    · exact absurd h hspace
    · exact ⟨trivial, by rw [if_neg h1, if_neg h2, if_neg h3, if_neg h4]⟩
  | line => exact absurd h (blank_not_visible c)
  | block depth =>
    simp only [scanChar] at h
    split_ifs at h
    · exact absurd h hspace
    · exact absurd h hspace
    · exact absurd h hspace
    · exact absurd h (blank_not_visible c)
  | string =>
    simp only [scanChar] at h
    split_ifs at h
    · exact absurd h hspace
    · exact absurd h (blank_not_visible c)
    · exact absurd h (blank_not_visible c)
  | quoted => exact absurd h (blank_not_visible c)
  | second m => exact absurd h (blank_not_visible c)

/-- A visible stretch was read in code mode, is the text itself and ends in code mode. -/
theorem visible_read {a : Text} {m : Mode} {x : Option Char} (hne : a ≠ [])
    (h : ∀ c ∈ (scanner.read m a x).1, Visible c) :
    m = .code ∧ scanner.read m a x = (a, .code) := by
  induction a generalizing m with
  | nil => exact absurd rfl hne
  | cons c rest ih =>
    rw [Reader.read_cons] at h ⊢
    have hc : Visible (scanChar m c (Reader.follower rest x)).1 := h _ (List.mem_cons_self ..)
    obtain ⟨rfl, hstep⟩ := visible_step hc
    have hs : scanner.step .code c (Reader.follower rest x) = (c, .code) := hstep
    rw [hs] at h ⊢
    by_cases hrest : rest = []
    · subst hrest
      exact ⟨rfl, rfl⟩
    · obtain ⟨_, hread⟩ := ih hrest fun d hd => h d (List.mem_cons_of_mem _ hd)
      rw [hread]
      exact ⟨rfl, rfl⟩

/-- A part that ends in code or in a line comment is read the same before another
character, unless the two make a comment delimiter. -/
theorem read_follower {m : Mode} {a : Text} {x y : Option Char}
    (hx : x ≠ some '-' ∧ x ≠ some '/')
    (hm : (scanner.read m a x).2 = .code ∨ (scanner.read m a x).2 = .line)
    (hy : y = some '-' → ¬ EndsOpen (scanner.read m a x).1) :
    scanner.read m a y = scanner.read m a x := by
  induction a using List.reverseRecOn with
  | nil => rfl
  | append_singleton l c _ =>
    have hone (z : Option Char) : scanner.read m (l ++ [c]) z =
        ((scanner.read m l (some c)).1 ++ [(scanChar (scanner.read m l (some c)).2 c z).1],
          (scanChar (scanner.read m l (some c)).2 c z).2) := by
      rw [Reader.read_append]
      simp [Reader.read_cons, scanner]
    rw [hone] at hm hy ⊢
    rw [hone]
    suffices scanChar (scanner.read m l (some c)).2 c y = scanChar (scanner.read m l (some c)).2 c x by
      rw [this]
    generalize (scanner.read m l (some c)).2 = μ at hm hy ⊢
    cases μ with
    | code =>
      simp only [scanChar, EndsOpen, List.getLast?_append, List.getLast?_singleton] at hy ⊢
      by_cases hd : y = some '-'
      · have hy := hy hd
        subst hd
        by_cases h1 : c = '-' <;> by_cases h2 : c = '/' <;> simp_all
      · simp [hd, hx.1]
    | line => rfl
    | block depth =>
      have hx' : scanChar (.block depth) c x = (blank c, .block depth) := by
        simp [scanChar, hx.1, hx.2]
      rw [hx'] at hm
      simp at hm
    | string => rfl
    | quoted => rfl
    | second m => rfl

/-! ### Lines behind a line comment -/

/-- The rest of the line at the start of a segment, which ends with a newline or with the text. -/
structure QuietLine (segment : Text) (last : Bool) : Prop where
  closes : '\n' ∉ segment → last = true
  blanked : ∀ c ∈ (scanner.read .code (segment.takeWhile (· ≠ '\n')) none).1, c = ' '
  settled : (scanner.read .code (segment.takeWhile (· ≠ '\n')) none).2 = .code ∨
    (scanner.read .code (segment.takeWhile (· ≠ '\n')) none).2 = .line

/-- Inside a line comment everything up to the newline is blanked. -/
theorem read_line {a : Text} (h : '\n' ∉ a) (x : Option Char) :
    scanner.read .line a x = (List.replicate a.length ' ', .line) := by
  induction a with
  | nil => rfl
  | cons c rest ih =>
    have hc : c ≠ '\n' := fun he => h (he ▸ List.mem_cons_self ..)
    have hstep : scanner.step .line c (Reader.follower rest x) = (' ', .line) := by
      simp [scanner, scanChar, blank, hc]
    rw [Reader.read_cons, hstep, ih fun hm => h (List.mem_cons_of_mem _ hm)]
    rfl

/-- A newline ends a line comment and code alike. -/
theorem step_newline {m : Mode} (h : m = .code ∨ m = .line) (x : Option Char) :
    scanner.step m '\n' x = ('\n', .code) := by
  rcases h with rfl | rfl
  · simp [scanner, scanChar]
  · simp [scanner, scanChar, blank]

theorem read_newline {m : Mode} (h : m = .code ∨ m = .line) (a : Text) (x : Option Char) :
    scanner.read m ('\n' :: a) x =
      ('\n' :: (scanner.read .code a x).1, (scanner.read .code a x).2) := by
  rw [Reader.read_cons, step_newline h]

theorem takeWhile_line (segment : Text) : '\n' ∉ segment.takeWhile (· ≠ '\n') := fun h => by
  simpa using List.mem_takeWhile_imp h

theorem line_split {segment : Text} (h : '\n' ∈ segment) :
    ∃ v, segment = segment.takeWhile (· ≠ '\n') ++ '\n' :: v := by
  cases hd : segment.dropWhile (· ≠ '\n') with
  | nil =>
    have hall := List.dropWhile_eq_nil_iff.mp hd '\n' h
    simp at hall
  | cons c v =>
    have hc := List.head_dropWhile_not (fun c => decide (c ≠ '\n')) (l := segment) (by rw [hd]; simp)
    simp only [hd, List.head_cons, decide_eq_false_iff_not, ne_eq, not_not] at hc
    refine ⟨v, ?_⟩
    conv_lhs => rw [← List.takeWhile_append_dropWhile (p := (· ≠ '\n')) (l := segment), hd, hc]

/-- Behind a line comment a quiet line is read as it is read from code, and so is
everything after it. -/
theorem QuietLine.read_eq {segment : Text} {last : Bool} (h : QuietLine segment last) (rest : Text)
    (hrest : last = true → rest = []) :
    (scanner.read .line (segment ++ rest) none).1 = (scanner.read .code (segment ++ rest) none).1 ∧
      (scanner.read .line (segment ++ rest) none).2.unterminated =
        (scanner.read .code (segment ++ rest) none).2.unterminated := by
  have hline := read_line (takeWhile_line segment)
  have hspaces : (scanner.read .code (segment.takeWhile (· ≠ '\n')) none).1 =
      List.replicate (segment.takeWhile (· ≠ '\n')).length ' ' := by
    rw [List.eq_replicate_iff]
    exact ⟨Reader.length_read .., h.blanked⟩
  have hsettled := h.settled
  by_cases hn : '\n' ∈ segment
  · obtain ⟨v, hv⟩ := line_split hn
    generalize segment.takeWhile (· ≠ '\n') = u at *
    have hcode : scanner.read .code u (some '\n') = scanner.read .code u none :=
      read_follower (by simp) hsettled (by simp)
    rw [hv, List.append_assoc, List.cons_append, Reader.read_append, Reader.read_append,
      Reader.follower_cons, hcode, hline, read_newline hsettled, read_newline (Or.inr rfl), hspaces]
    exact ⟨rfl, rfl⟩
  · have hu : segment.takeWhile (· ≠ '\n') = segment := by
      rw [List.takeWhile_eq_self_iff]
      intro c hc
      simpa using fun he : c = '\n' => hn (he ▸ hc)
    rw [hrest (h.closes hn), List.append_nil]
    rw [hu] at hline hspaces hsettled
    rw [hline, hspaces]
    refine ⟨rfl, ?_⟩
    rcases hsettled with hm | hm
    · rw [hm]
      rfl
    · rw [hm]

end LeanFlow.Source
