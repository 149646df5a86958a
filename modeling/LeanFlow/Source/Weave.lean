import LeanFlow.Source.Lexing

/-! Texts cut at holes, and what the scan makes of them when holes are filled.

A text with holes is its first untouched segment and, for each hole, what stands
in it and the segment after it; `weave` puts it together. The baseline has
`sorry` in every hole. When each junction is clean (`Junction`) the scan of the
filled text masks every segment as the scan of the baseline does (`clean_read`). -/
namespace LeanFlow.Source
open General

def weave (first : Text) (holes : List (Text × Text)) : Text :=
  first ++ holes.flatMap fun p => p.1 ++ p.2

theorem weave_cons (first r s : Text) (holes : List (Text × Text)) :
    weave first ((r, s) :: holes) = first ++ (r ++ weave s holes) := by
  simp [weave]

/-- The same segments with the literal in every hole. -/
def original (holes : List (Text × Text)) : List (Text × Text) := holes.map fun p => (hole, p.2)

theorem original_cons (r s : Text) (holes : List (Text × Text)) :
    original ((r, s) :: holes) = (hole, s) :: original holes := rfl

/-! ### The baseline -/

/-- The mask of a segment, read from code before a hole or before the end of the text. -/
def segmentMask (segment : Text) (holes : List (Text × Text)) : Text :=
  (scanner.read .code segment (if holes.isEmpty then none else some 's')).1

/-- The masks of a text's parts, each hole's text read on its own. -/
def masks : List (Text × Text) → List (Text × Text)
  | [] => []
  | (r, s) :: holes => ((scanner.read .code r none).1, segmentMask s holes) :: masks holes

/-- The scan of the baseline: every hole stands in code, and the end is not inside a token. -/
inductive Reads : Text → List (Text × Text) → Prop where
  | last {s : Text} : (scanner.read .code s none).2.unterminated = none → Reads s []
  | hole {first r s : Text} {holes : List (Text × Text)} :
    (scanner.read .code first (some 's')).2 = .code → Reads s holes → Reads first ((r, s) :: holes)

/-- A mask with the literal at a position: the text has it there too, in code. -/
theorem read_hole {text before after : Text} {x : Option Char} {final : Mode}
    (h : scanner.read .code text x = (before ++ hole ++ after, final)) :
    ∃ a b, text = a ++ hole ++ b ∧ scanner.read .code a (some 's') = (before, .code) ∧
      scanner.read .code b x = (after, final) := by
  have hlen : text.length = before.length + 5 + after.length := by
    have := congrArg (fun p => p.1.length) h
    simp [hole] at this
    omega
  have hcut : text = text.take before.length ++
      ((text.drop before.length).take 5 ++ (text.drop before.length).drop 5) := by
    rw [List.take_append_drop, List.take_append_drop]
  generalize ha : text.take before.length = a at hcut
  generalize hw : (text.drop before.length).take 5 = w at hcut
  generalize (text.drop before.length).drop 5 = b at hcut
  have hal : a.length = before.length := by
    rw [← ha, List.length_take]
    omega
  have hwl : w.length = 5 := by
    rw [← hw, List.length_take, List.length_drop]
    omega
  rw [hcut, Reader.read_append, Reader.read_append] at h
  have hpair := Prod.mk.inj h
  rw [List.append_assoc] at hpair
  obtain ⟨hbefore, hrest⟩ := List.append_inj hpair.1 (by rw [Reader.length_read, hal])
  obtain ⟨hmid, hafter⟩ := List.append_inj hrest (by rw [Reader.length_read, hwl]; rfl)
  have hvisible : ∀ c ∈ hole, Visible c := by
    intro c hc
    simp only [hole, List.mem_cons, List.not_mem_nil, or_false] at hc
    rcases hc with rfl | rfl | rfl | rfl | rfl <;> exact ⟨by decide, by decide⟩
  have hwne : w ≠ [] := by
    rintro rfl
    simp at hwl
  obtain ⟨hmode, hread⟩ := visible_read hwne (by rw [hmid]; exact hvisible)
  have hword : w = hole := by
    rw [hread] at hmid
    exact hmid
  subst hword
  rw [hread] at hafter hpair
  have hs : Reader.follower (hole ++ b) x = some 's' := rfl
  rw [hs] at hbefore hmode
  exact ⟨a, b, by rw [hcut, List.append_assoc], Prod.ext hbefore hmode, Prod.ext hafter hpair.2⟩

/-! ### Clean junctions -/

/-- What a filled hole owes its neighbours: it completes no comment delimiter with
the code before it (`left`) or after it (`right`), and a line comment it leaves
open ends on a line that was blank anyway (`comment`). -/
structure Junction (first r s : Text) (holes : List (Text × Text)) : Prop where
  left : (r ++ weave s holes).head? = some '-' → ¬ EndsOpen (scanner.read .code first (some 's')).1
  right : (weave s holes).head? = some '-' → ¬ EndsOpen (scanner.read .code r none).1
  comment : (scanner.read .code r none).2 = .line → QuietLine s holes.isEmpty

inductive Clean : Text → List (Text × Text) → Prop where
  | last {s : Text} : Clean s []
  | hole {first r s : Text} {holes : List (Text × Text)} :
    Junction first r s holes → Clean s holes → Clean first ((r, s) :: holes)

theorem follower_eq_head (t : Text) : Reader.follower t none = t.head? := by
  cases t <;> rfl

/-- Not in the middle of a two-character token. -/
def Mode.Whole (m : Mode) : Prop := ∀ m', m ≠ .second m'

/-- The modes the scan passes through: whole ones, and the middle of a token between them. -/
def Mode.Proper (m : Mode) : Prop := m.Whole ∨ ∃ m', m'.Whole ∧ m = .second m'

theorem proper_step {m : Mode} (h : m.Proper) (c : Char) (next : Option Char) :
    (scanChar m c next).2.Proper := by
  have whole {m : Mode} (h : m.Whole) : m.Proper := Or.inl h
  have second {m : Mode} (h : m.Whole) : (Mode.second m).Proper := Or.inr ⟨m, h, rfl⟩
  rcases h with h | ⟨m', h, rfl⟩
  · cases m with
    | second m' => exact absurd rfl (h m')
    | code =>
      simp only [scanChar]
      split_ifs
      · exact second (by simp [Mode.Whole])
      · exact second (by simp [Mode.Whole])
      · exact whole (by simp [Mode.Whole])
      · exact whole (by simp [Mode.Whole])
      · exact whole (by simp [Mode.Whole])
    | line =>
      simp only [scanChar]
      split_ifs <;> exact whole (by simp [Mode.Whole])
    | block depth =>
      simp only [scanChar]
      split_ifs
      · exact second (by simp [Mode.Whole])
      · exact second (by simp [Mode.Whole])
      · exact second (by simp [Mode.Whole])
      · exact whole (by simp [Mode.Whole])
    | string =>
      simp only [scanChar]
      split_ifs
      · exact second (by simp [Mode.Whole])
      · exact whole (by simp [Mode.Whole])
      · exact whole (by simp [Mode.Whole])
    | quoted =>
      simp only [scanChar]
      split_ifs <;> exact whole (by simp [Mode.Whole])
  · exact whole h

theorem proper_read (a : Text) (x : Option Char) {m : Mode} (h : m.Proper) :
    (scanner.read m a x).2.Proper := by
  induction a generalizing m with
  | nil => exact h
  | cons c rest ih => exact ih (proper_step h c _)

/-- At the end of a text no two-character token is half read, except an escape. -/
theorem last_step {m : Mode} (h : m.Proper) (c : Char)
    (hend : (scanChar m c none).2.unterminated = none) :
    (scanChar m c none).2 = .code ∨ (scanChar m c none).2 = .line := by
  rcases h with h | ⟨m', h, rfl⟩
  · cases m with
    | second m' => exact absurd rfl (h m')
    | code =>
      simp only [scanChar] at hend ⊢
      split_ifs at hend ⊢ <;> simp_all [Mode.unterminated]
    | line =>
      simp only [scanChar]
      split_ifs <;> simp
    | block depth => simp [scanChar, Mode.unterminated] at hend
    | string =>
      simp only [scanChar] at hend ⊢
      split_ifs at hend ⊢ <;> simp_all [Mode.unterminated]
    | quoted =>
      simp only [scanChar] at hend ⊢
      split_ifs at hend ⊢ <;> simp_all [Mode.unterminated]
  · simp only [scanChar] at hend ⊢
    cases m' with
    | second m => exact absurd rfl (h m)
    | code => exact Or.inl rfl
    | line => exact Or.inr rfl
    | block depth => cases hend
    | string => cases hend
    | quoted => cases hend

/-- A text that ends outside every token ends in code or in a line comment. -/
theorem read_ends {r : Text} (h : (scanner.read .code r none).2.unterminated = none) :
    (scanner.read .code r none).2 = .code ∨ (scanner.read .code r none).2 = .line := by
  induction r using List.reverseRecOn with
  | nil => exact Or.inl rfl
  | append_singleton l c _ =>
    have hone : (scanner.read .code (l ++ [c]) none).2 =
        (scanChar (scanner.read .code l (some c)).2 c none).2 := by
      rw [Reader.read_append]
      rfl
    rw [hone] at h ⊢
    exact last_step (proper_read l _ (Or.inl (by simp [Mode.Whole]))) c h

/-! ### Reading a filled text -/

theorem not_open_of_head {t : Text} {mask : Text} (h : t.head? = some '-' → ¬ EndsOpen mask) :
    Reader.follower t none = some '-' → ¬ EndsOpen mask := by
  rw [follower_eq_head]
  exact h

/-- A segment read before a filled hole is masked as it is before the literal. -/
theorem read_before {first r s : Text} {holes : List (Text × Text)}
    (hcode : (scanner.read .code first (some 's')).2 = .code) (hj : Junction first r s holes) :
    scanner.read .code first (Reader.follower (r ++ weave s holes) none) =
      scanner.read .code first (some 's') :=
  read_follower (by simp) (Or.inl hcode) (not_open_of_head hj.left)

/-- A replacement read in its place is masked as it is on its own. -/
theorem read_inside {first r s : Text} {holes : List (Text × Text)}
    (hr : (scanner.read .code r none).2.unterminated = none) (hj : Junction first r s holes) :
    scanner.read .code r (Reader.follower (weave s holes) none) = scanner.read .code r none :=
  read_follower (by simp) (read_ends hr) (not_open_of_head hj.right)

/-- **Clean junctions contain their replacements**: every segment and every
replacement is masked as it is on its own, and the text ends outside every token. -/
theorem clean_read {first : Text} {holes : List (Text × Text)} (hreads : Reads first holes)
    (hclean : Clean first holes)
    (hr : ∀ p ∈ holes, (scanner.read .code p.1 none).2.unterminated = none) :
    (scanner.read .code (weave first holes) none).1 = weave (segmentMask first holes) (masks holes) ∧
      (scanner.read .code (weave first holes) none).2.unterminated = none := by
  induction hreads with
  | last h => exact ⟨by simp [weave, masks, segmentMask], by simpa [weave] using h⟩
  | @hole first r s holes hcode hreads ih =>
    cases hclean with
    | hole hj hclean =>
      obtain ⟨hmask, hend⟩ := ih hclean fun p hp => hr p (List.mem_cons_of_mem _ hp)
      have hr0 : (scanner.read .code r none).2.unterminated = none := hr (r, s) (List.mem_cons_self ..)
      have hrest : (scanner.read (scanner.read .code r none).2 (weave s holes) none).1 =
          (scanner.read .code (weave s holes) none).1 ∧
          (scanner.read (scanner.read .code r none).2 (weave s holes) none).2.unterminated =
            (scanner.read .code (weave s holes) none).2.unterminated := by
        rcases read_ends hr0 with hm | hm
        · rw [hm]
          exact ⟨rfl, rfl⟩
        · rw [hm]
          exact (hj.comment hm).read_eq _ fun hl => by simp [List.isEmpty_iff.mp hl]
      rw [weave_cons, Reader.read_append, Reader.read_append, read_before hcode hj, hcode,
        read_inside hr0 hj]
      refine ⟨?_, hrest.2.trans hend⟩
      show _ = weave (segmentMask first ((r, s) :: holes))
        (((scanner.read .code r none).1, segmentMask s holes) :: masks holes)
      rw [weave_cons, hrest.1, hmask]
      rfl

end LeanFlow.Source
