import LeanFlow.Source.Weave
import LeanFlow.Source.Tokens
import LeanFlow.Source.Document

/-! Import lines inserted at the start of a line.

Lines that leave the scan in the mode they meet can be inserted there behind a newline:
the rest of the mask and the rest of the tokens move behind them (`insert_lines`).
`render` inserts them at such a place (`take_preludeEnd`). -/
namespace LeanFlow.Source
open General

variable {C : CharClass}

/-- The start of a line: the start of the text, or behind a newline. -/
def AtLine (a : Text) : Prop := a = [] ∨ ∃ l, a = l ++ ['\n']

variable (C) in
/-- Lines that, read in this mode, close what they open and nothing else, and have no literal hole. -/
structure PlainLines (m : Mode) (l : Text) : Prop where
  closed : (scanner.read m l none).2 = m
  free : tokens C none 0 (scanner.read m l none).1 = []

/-! ### Reading a newline -/

/-- A newline is kept, and read the same whatever follows. -/
theorem newline_kept (m : Mode) (x : Option Char) : scanner.step m '\n' x = ('\n', (scanner.step m '\n' none).2) := by
  cases m <;> simp [scanner, scanChar, blank]

/-- A text up to the start of a line is read the same whatever follows. -/
theorem read_atLine {a : Text} (h : AtLine a) (m : Mode) : AtLine (scanner.read m a none).1 ∧
    ∀ x, scanner.read m a x = scanner.read m a none := by
  rcases h with rfl | ⟨l, rfl⟩
  · exact ⟨Or.inl rfl, fun _ => rfl⟩
  · have hread (x : Option Char) : scanner.read m (l ++ ['\n']) x = ((scanner.read m l (some '\n')).1 ++ ['\n'],
        (scanner.step (scanner.read m l (some '\n')).2 '\n' none).2) := by
      rw [Reader.read_append, Reader.follower_cons, Reader.read_cons, Reader.follower_nil, newline_kept]
      rfl
    exact ⟨Or.inr ⟨_, by rw [hread]⟩, fun x => by rw [hread, hread]⟩

/-! ### Tokens around a line start -/

theorem word_newline : C.word '\n' = false := by
  rw [C.word_ascii _ (by decide)]
  decide

theorem AtLine.apart {a : Text} (h : AtLine a) (b : Text) : Apart C a b := by
  left
  rintro c hc
  rcases h with rfl | ⟨l, rfl⟩
  · cases hc
  · rw [List.getLast?_append, List.getLast?_singleton] at hc
    obtain rfl : '\n' = c := by simpa using hc
    exact word_newline

/-- A token may start at the start of a line. -/
theorem AtLine.starts {a : Text} (h : AtLine a) {previous : Option Char}
    (hp : startsToken C previous = true) : startsToken C (lastOr previous a) = true := by
  rcases h with rfl | ⟨l, rfl⟩
  · exact hp
  · simp [lastOr, startsToken, word_newline]

/-! ### Inserting lines -/

/-- Where a span of a text stands when `n` characters are inserted at `p`. -/
def place (p n : Nat) (span : Nat × Nat) : Nat × Nat :=
  if span.1 < p then span else (span.1 + n, span.2 + n)

theorem tokens_insert {x y z : Text} (hx : AtLine x) (hy : AtLine y)
    (hfree : ∀ previous, startsToken C previous = true → tokens C previous 0 y = []) :
    tokens C none 0 (x ++ y ++ z) = (tokens C none 0 (x ++ z)).map (place x.length y.length) := by
  have hstart : startsToken C (lastOr none x) = true := hx.starts rfl
  have hlast : startsToken C (lastOr (lastOr none x) y) = startsToken C (lastOr none x) := by
    rw [hy.starts hstart, hstart]
  rw [List.append_assoc, tokens_append (hx.apart _), tokens_append (hy.apart _),
    tokens_append (hx.apart _), tokens_eq_nil (hfree _ hstart), tokens_starts hlast, List.nil_append,
    tokens_shift, List.map_append]
  congr 1
  · refine (List.map_id _).symm.trans (List.map_congr_left fun span hspan => ?_)
    obtain ⟨h1, h2, h3⟩ := tokens_bounds hspan
    rw [place, if_pos (by omega)]
    rfl
  · refine List.map_congr_left fun span hspan => ?_
    obtain ⟨h1, h2, h3⟩ := tokens_bounds hspan
    rw [place, if_neg (by omega)]

/-- No token of a text straddles the start of a line. -/
theorem tokens_atLine {x z : Text} (hx : AtLine x) {span : Nat × Nat}
    (h : span ∈ tokens C none 0 (x ++ z)) : span.2 ≤ x.length ∨ x.length ≤ span.1 := by
  rw [tokens_append (hx.apart _), List.mem_append] at h
  rcases h with h | h
  · obtain ⟨h1, h2, h3⟩ := tokens_bounds h
    omega
  · obtain ⟨h1, h2, h3⟩ := tokens_bounds h
    omega

/-- **Plain lines can be inserted at the start of a line**: the masks and the
tokens on both sides stay, those behind the lines move by their length. -/
theorem insert_lines {a l b : Text} (ha : AtLine a) (hends : AtLine l) (hl : PlainLines C (scanner.read .code a none).2 l) :
    ∃ x y z m, scanner.read .code (a ++ b) none = (x ++ z, m) ∧
      scanner.read .code (a ++ l ++ b) none = (x ++ y ++ z, m) ∧
      AtLine x ∧ x.length = a.length ∧ y.length = l.length ∧
      tokens C none 0 (x ++ y ++ z) = (tokens C none 0 (x ++ z)).map (place a.length l.length) := by
  obtain ⟨hx, hread⟩ := read_atLine ha .code
  obtain ⟨hy, hlines⟩ := read_atLine hends (scanner.read .code a none).2
  have hfree (previous : Option Char) (hp : startsToken C previous = true) :
      tokens C previous 0 (scanner.read (scanner.read .code a none).2 l none).1 = [] := by
    have hstarts : startsToken C previous = startsToken C none := by rw [hp]; rfl
    rw [tokens_starts hstarts]
    exact hl.free
  refine ⟨(scanner.read .code a none).1, (scanner.read (scanner.read .code a none).2 l none).1,
    (scanner.read (scanner.read .code a none).2 b none).1, (scanner.read (scanner.read .code a none).2 b none).2,
    ?_, ?_, hx, Reader.length_read .., Reader.length_read .., ?_⟩
  · rw [Reader.read_append, hread]
  · rw [List.append_assoc, Reader.read_append, hread, Reader.read_append, hlines, hl.closed, List.append_assoc]
  · rw [tokens_insert hx hy hfree, Reader.length_read, Reader.length_read]

theorem preludeEnd_le (text : Text) : preludeEnd C text ≤ text.length := by
  have hlen : text.length = (text.takeWhile C.space).length + (text.dropWhile C.space).length := by
    rw [← List.length_append, List.takeWhile_append_dropWhile]
  rw [preludeEnd]
  split
  · rename_i h
    simp only [Bool.and_eq_true, decide_eq_true_eq] at h
    omega
  · exact Nat.zero_le _

/-- `render` puts its import lines at the start of a line. -/
theorem take_preludeEnd (text : Text) : AtLine (text.take (preludeEnd C text)) := by
  rw [preludeEnd]
  split
  · rename_i h
    simp only [Bool.and_eq_true, decide_eq_true_eq] at h
    generalize hstart : text.dropWhile C.space = start at h
    have hn : '\n' ∈ start := by
      by_contra hn
      have hall : start.takeWhile (· ≠ '\n') = start := by
        rw [List.takeWhile_eq_self_iff]
        intro c hc
        simpa using fun he : c = '\n' => hn (he ▸ hc)
      rw [hall] at h
      exact absurd h.2 (Nat.lt_irrefl _)
    obtain ⟨v, hv⟩ := line_split hn
    have htext : text = text.takeWhile C.space ++ start.takeWhile (· ≠ '\n') ++ ['\n'] ++ v := by
      conv_lhs => rw [← List.takeWhile_append_dropWhile (p := C.space) (l := text), hstart, hv]
      simp
    right
    refine ⟨text.takeWhile C.space ++ start.takeWhile (· ≠ '\n'), ?_⟩
    generalize text.takeWhile C.space = w at *
    generalize start.takeWhile (· ≠ '\n') = u at *
    rw [htext, List.take_left' (by simp [Nat.add_assoc])]
  · exact Or.inl (List.take_zero ..)

end LeanFlow.Source
