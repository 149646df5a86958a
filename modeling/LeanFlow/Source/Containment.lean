import LeanFlow.Source.Document
import LeanFlow.Source.Weave
import LeanFlow.Source.Tokens

/-! Rendered hole containment.

`cut` splits a baseline at its replaced holes. When every junction of the cut is
clean, the rendered text is masked segment by segment as the baseline is, its
`sorry` tokens outside the replacements are the unreplaced holes in order, and
the position of a hole among the unreplaced ones finds it in the rendered text
(`render_contained`). -/
namespace LeanFlow.Source
open General

variable {C : CharClass}

/-! ### Cutting a baseline at its replaced holes -/

section Cut
variable (replacements : Nat → Option Text)

/-- The text `t`, which starts at `pos`, cut at the replaced spans; `index` numbers the spans. -/
def cut : Nat → Nat → List (Nat × Nat) → Text → Text × List (Text × Text)
  | _, _, [], t => (t, [])
  | index, pos, (a, z) :: spans, t =>
    let c := cut (index + 1) z spans (t.drop (z - pos))
    match replacements index with
    | some r => (t.take (a - pos), (r, c.1) :: c.2)
    | none => (t.take (z - pos) ++ c.1, c.2)

/-- The unreplaced spans with their numbers. -/
def unreplaced (index : Nat) (spans : List (Nat × Nat)) : List ((Nat × Nat) × Nat) :=
  (spans.zipIdx index).filter fun entry => (replacements entry.2).isNone

end Cut

/-! ### Segments -/

/-- An untouched stretch: where it starts in the baseline, where it stands, how long it is. -/
structure Segment where
  source : Nat
  target : Nat
  length : Nat
deriving DecidableEq, Repr

/-- A span that lies in the stretch. -/
def Segment.holds (segment : Segment) (span : Nat × Nat) : Bool :=
  segment.target ≤ span.1 && span.2 ≤ segment.target + segment.length

/-- The segments of a cut text whose first one starts at `source` and stands at `target`. -/
def segments : Nat → Nat → Text → List (Text × Text) → List Segment
  | source, target, first, [] => [⟨source, target, first.length⟩]
  | source, target, first, (r, s) :: holes => ⟨source, target, first.length⟩ ::
      segments (source + first.length + 5) (target + first.length + r.length) s holes

/-- A span of the baseline that lies in a segment, and where it stands in the filled text. -/
def Moved (segments : List Segment) (span span' : Nat × Nat) : Prop :=
  ∃ g ∈ segments, g.source ≤ span.1 ∧ span.2 ≤ g.source + g.length ∧
    span' = (g.target + (span.1 - g.source), g.target + (span.1 - g.source) + (span.2 - span.1))

/-- The tokens of a filled text that stand in its segments. -/
def heldTokens (C : CharClass) (previous : Option Char) (pos : Nat) (first : Text) :
    List (Text × Text) → List (Nat × Nat)
  | [] => tokens C previous pos first
  | (r, s) :: holes => tokens C previous pos first ++
      heldTokens C (some 'y') (pos + first.length + r.length) s holes

/-- Every hole of a mask stands as a token: no token crosses into or out of it. -/
inductive Framed (C : CharClass) : Option Char → Text → List (Text × Text) → Prop where
  | last {previous : Option Char} {x : Text} : Framed C previous x []
  | hole {previous : Option Char} {x y x' : Text} {holes : List (Text × Text)} :
    startsToken C (lastOr previous x) = true → endsToken C x'.head? = true →
    (x' = [] → holes = []) → Framed C (some 'y') x' holes → Framed C previous x ((y, x') :: holes)

/-- An unreplaced hole is read as the code it is. -/
theorem read_open {a : Text} (h : (scanner.read .code a (some 's')).2 = .code) (b : Text)
    (x : Option Char) :
    scanner.read .code (a ++ hole ++ b) x =
      ((scanner.read .code a (some 's')).1 ++ hole ++ (scanner.read .code b x).1,
        (scanner.read .code b x).2) := by
  have hhole (y : Option Char) : scanner.read .code hole y = (hole, .code) := by
    simp [hole, Reader.read_cons, scanner, scanChar]
  have hs : Reader.follower (hole ++ b) x = some 's' := rfl
  rw [List.append_assoc, Reader.read_append, Reader.read_append, hs, h, hhole, List.append_assoc]

/-- What a cut of a masked text is. -/
structure CutOf (C : CharClass) (replacements : Nat → Option Text) (index pos : Nat)
    (previous : Option Char) (spans : List (Nat × Nat)) (t x : Text) (first : Text)
    (holes : List (Text × Text)) : Prop where
  text : weave first (original holes) = t
  reads : Reads first holes
  mask : weave (segmentMask first holes) (original (masks holes)) = x
  splice : ∀ before : Text, before.length = pos →
    (spans.zipIdx index).foldr (fillSpan replacements) (before ++ t) = before ++ weave first holes
  framed : Framed C previous (segmentMask first holes) (masks holes)
  held : ∀ target, List.Forall₂ (Moved (segments pos target first holes))
    ((unreplaced replacements index spans).map (·.1))
    (heldTokens C previous target (segmentMask first holes) (masks holes))
  filled : ∀ p ∈ holes, ∃ i, replacements i = some p.1

/-- The segment after a hole starts the way the text after the hole does. -/
theorem ends_segment {s : Text} {holes : List (Text × Text)}
    (h : endsToken C (weave s (original holes)).head? = true) :
    endsToken C s.head? = true ∧ (s = [] → holes = []) := by
  cases s with
  | cons c s => exact ⟨by simpa [weave] using h, by simp⟩
  | nil =>
    refine ⟨rfl, fun _ => ?_⟩
    cases holes with
    | nil => rfl
    | cons p holes =>
      have hs : endsToken C (some 's') = true := by simpa [weave, original, hole] using h
      rw [endsToken_hole (by decide)] at hs
      cases hs

theorem heldTokens_open {previous : Option Char} {u s : Text} {holes : List (Text × Text)} {pos : Nat}
    (hu : tokens C previous pos u = []) (hstarts : startsToken C (lastOr previous u) = true)
    (hends : endsToken C s.head? = true) (target : Nat) :
    heldTokens C previous target (u ++ hole ++ s) holes =
      (target + u.length, target + u.length + 5) ::
        heldTokens C (some 'y') (target + u.length + 5) s holes := by
  have htokens : tokens C previous target (u ++ hole ++ s) = (target + u.length, target + u.length + 5) ::
      tokens C (some 'y') (target + u.length + 5) s := by
    rw [List.append_assoc, tokens_append (apart_of_starts hstarts _), tokens_eq_nil hu,
      tokens_hole hstarts hends]
    rfl
  have hlength : target + (u ++ hole ++ s).length = target + u.length + 5 + s.length := by
    simp only [List.length_append, hole, List.length_cons, List.length_nil]
    omega
  cases holes with
  | nil => exact htokens
  | cons p holes =>
    obtain ⟨r, s'⟩ := p
    simp only [heldTokens, htokens, hlength]
    rfl

theorem framed_open {previous : Option Char} {u s : Text} {holes : List (Text × Text)}
    (h : Framed C (some 'y') s holes) : Framed C previous (u ++ hole ++ s) holes := by
  have hlast : lastOr previous (u ++ hole ++ s) = lastOr (some 'y') s := by
    rw [lastOr_append, lastOr_append]
    rfl
  cases h with
  | last => exact .last
  | hole hstarts hends hempty hrest => exact .hole (hlast ▸ hstarts) hends hempty hrest

theorem reads_open {a s : Text} {holes : List (Text × Text)}
    (ha : (scanner.read .code a (some 's')).2 = .code) (h : Reads s holes) :
    Reads (a ++ hole ++ s) holes := by
  cases h with
  | last h => exact .last (by rw [read_open ha]; exact h)
  | hole hcode hrest => exact .hole (by rw [read_open ha]; exact hcode) hrest

theorem segmentMask_open {a : Text} (ha : (scanner.read .code a (some 's')).2 = .code) (s : Text)
    (holes : List (Text × Text)) :
    segmentMask (a ++ hole ++ s) holes =
      (scanner.read .code a (some 's')).1 ++ hole ++ segmentMask s holes := by
  rw [segmentMask, read_open ha, segmentMask]

/-- What moves with a later segment moves with the whole text. -/
theorem moved_cons {source target : Nat} {first r s : Text} {holes : List (Text × Text)}
    {span span' : Nat × Nat}
    (h : Moved (segments (source + first.length + 5) (target + first.length + r.length) s holes)
      span span') :
    Moved (segments source target first ((r, s) :: holes)) span span' := by
  obtain ⟨g, hg, hspan⟩ := h
  exact ⟨g, List.mem_cons_of_mem _ hg, hspan⟩

/-- Text put before the first segment moves with it. -/
theorem moved_before {a s : Text} {holes : List (Text × Text)} {source target : Nat}
    {span span' : Nat × Nat} (h : Moved (segments (source + a.length) (target + a.length) s holes) span span') :
    Moved (segments source target (a ++ s) holes) span span' := by
  obtain ⟨g, hg, hlow, hhigh, rfl⟩ := h
  have hfirst (rest rest' : List Segment) (hrest : rest' = rest)
      (hg : g ∈ ⟨source + a.length, target + a.length, s.length⟩ :: rest) :
      Moved (⟨source, target, (a ++ s).length⟩ :: rest') span
        (g.target + (span.1 - g.source), g.target + (span.1 - g.source) + (span.2 - span.1)) := by
    rcases List.mem_cons.mp hg with rfl | hg
    · dsimp only at hlow hhigh
      refine ⟨_, List.mem_cons_self .., ?_, ?_, ?_⟩
      · dsimp only
        omega
      · simp only [List.length_append]
        omega
      · simp only [Prod.mk.injEq]
        omega
    · exact ⟨g, List.mem_cons_of_mem _ (hrest ▸ hg), hlow, hhigh, rfl⟩
  cases holes with
  | nil => exact hfirst [] [] rfl hg
  | cons p holes =>
    obtain ⟨r, s'⟩ := p
    refine hfirst _ _ ?_ hg
    simp only [List.length_append, Nat.add_assoc]

/-- The first segment's own span moves with it. -/
theorem moved_own {a s : Text} {holes : List (Text × Text)} {source target : Nat} :
    Moved (segments source target (a ++ hole ++ s) holes) (source + a.length, source + a.length + 5)
      (target + a.length, target + a.length + 5) := by
  have hlen : (a ++ hole ++ s).length = a.length + 5 + s.length := by
    simp [hole]
    omega
  have hfirst (rest : List Segment) : Moved (⟨source, target, (a ++ hole ++ s).length⟩ :: rest)
      (source + a.length, source + a.length + 5) (target + a.length, target + a.length + 5) := by
    refine ⟨_, List.mem_cons_self .., ?_, ?_, ?_⟩
    · exact Nat.le_add_right ..
    · dsimp only
      omega
    · simp only [Prod.mk.injEq]
      omega
  cases holes with
  | nil => exact hfirst []
  | cons p holes => exact hfirst _

/-- A replaced span ends a segment. -/
theorem cut_some {replacements : Nat → Option Text} {index : Nat} {r : Text}
    (h : replacements index = some r) (pos : Nat) (spans : List (Nat × Nat)) (a b : Text) :
    cut replacements index pos ((pos + a.length, pos + a.length + 5) :: spans) (a ++ hole ++ b) =
      (a, (r, (cut replacements (index + 1) (pos + a.length + 5) spans b).1) ::
        (cut replacements (index + 1) (pos + a.length + 5) spans b).2) := by
  have hdrop : (a ++ hole ++ b).drop (pos + a.length + 5 - pos) = b := by
    have hlen : pos + a.length + 5 - pos = (a ++ hole).length := by
      simp [hole]
      omega
    rw [hlen, List.drop_left]
  have htake : (a ++ hole ++ b).take (pos + a.length - pos) = a := by
    rw [Nat.add_sub_cancel_left, List.append_assoc, List.take_left]
  simp only [cut, h, hdrop, htake]

/-- An unreplaced span stays part of its segment. -/
theorem cut_none {replacements : Nat → Option Text} {index : Nat}
    (h : replacements index = none) (pos : Nat) (spans : List (Nat × Nat)) (a b : Text) :
    cut replacements index pos ((pos + a.length, pos + a.length + 5) :: spans) (a ++ hole ++ b) =
      (a ++ hole ++ (cut replacements (index + 1) (pos + a.length + 5) spans b).1,
        (cut replacements (index + 1) (pos + a.length + 5) spans b).2) := by
  have hlen : pos + a.length + 5 - pos = (a ++ hole).length := by
    simp [hole]
    omega
  simp only [cut, h, hlen, List.drop_left, List.take_left]

theorem fillSpan_some {replacements : Nat → Option Text} {index : Nat} {r : Text}
    (h : replacements index = some r) (before b : Text) :
    fillSpan replacements ((before.length, before.length + 5), index) (before ++ hole ++ b) =
      before ++ r ++ b := by
  have htake : (before ++ hole ++ b).take before.length = before := by
    rw [List.append_assoc, List.take_left]
  have hdrop : (before ++ hole ++ b).drop (before.length + 5) = b := by
    rw [show before.length + 5 = (before ++ hole).length by simp [hole], List.drop_left]
  simp only [fillSpan, h, htake, hdrop]

theorem fillSpan_none {replacements : Nat → Option Text} {index : Nat} (h : replacements index = none)
    (span : Nat × Nat) (text : Text) : fillSpan replacements (span, index) text = text := by
  simp only [fillSpan, h]

/-- Everything about a cut, by induction on the spans: a replaced span ends a segment, an
unreplaced one is read as part of it. -/
theorem cut_spec (replacements : Nat → Option Text) (spans : List (Nat × Nat)) (index pos : Nat)
    (previous : Option Char) (t x : Text) (hspans : tokens C previous pos x = spans)
    (hmask : (scanner.read .code t none).1 = x)
    (hend : (scanner.read .code t none).2.unterminated = none) :
    CutOf C replacements index pos previous spans t x (cut replacements index pos spans t).1
      (cut replacements index pos spans t).2 := by
  induction spans generalizing index pos previous t x with
  | nil =>
    refine ⟨by simp [cut, weave, original], .last hend, ?_, fun _ _ => by simp [cut, weave], .last,
      fun target => ?_, by simp [cut]⟩
    · simpa [cut, weave, original, masks, segmentMask] using hmask
    · have hnil : tokens C previous target x = [] := tokens_eq_nil hspans target
      simp [cut, heldTokens, masks, segmentMask, unreplaced, hmask, hnil]
  | cons span spans ih =>
    obtain ⟨a, z⟩ := span
    obtain ⟨u, v, rfl, rfl, rfl, hu, hstarts, hends, hrest⟩ := tokens_cons hspans
    obtain ⟨ta, tb, rfl, hta, htb⟩ := read_hole (Prod.ext hmask rfl)
    have hlen : u.length = ta.length := by
      rw [← Reader.length_read scanner .code ta (some 's'), hta]
    have hcode : (scanner.read .code ta (some 's')).2 = .code := by rw [hta]
    have hfirst (holes : List (Text × Text)) (r : Text × Text) : segmentMask ta (r :: holes) = u := by
      simp [segmentMask, hta]
    rw [hlen] at hrest ⊢
    have hc := ih (index + 1) (pos + ta.length + 5) (some 'y') tb v hrest (by rw [htb])
      (by rw [htb]; exact hend)
    have hbefore (before : Text) (hb : before.length = pos) :
        (before ++ ta ++ hole).length = pos + ta.length + 5 := by
      simp [hb, hole, Nat.add_assoc]
    have hinner (before : Text) (hb : before.length = pos) :=
      hc.splice (before ++ ta ++ hole) (hbefore before hb)
    obtain ⟨hends', hempty⟩ := ends_segment (s := segmentMask _ _) (by rw [hc.mask]; exact hends)
    cases hrepl : replacements index with
    | some r =>
      rw [cut_some hrepl]
      generalize cut replacements (index + 1) (pos + ta.length + 5) spans tb = c at *
      refine ⟨?_, .hole hcode hc.reads, ?_, fun before hb => ?_, ?_, fun target => ?_, ?_⟩
      · rw [original_cons, weave_cons, hc.text, List.append_assoc]
      · rw [masks, original_cons, weave_cons, hc.mask, hfirst, List.append_assoc]
      · have hsplit : before ++ (ta ++ hole ++ tb) = before ++ ta ++ hole ++ tb := by simp
        have hplace : ((pos + ta.length, pos + ta.length + 5), index) =
            (((before ++ ta).length, (before ++ ta).length + 5), index) := by simp [hb]
        rw [List.zipIdx_cons, List.foldr_cons, hsplit, hinner before hb, hplace, fillSpan_some hrepl,
          weave_cons]
        simp
      · rw [masks, hfirst]
        exact .hole hstarts hends' hempty hc.framed
      · have hskip : unreplaced replacements index ((pos + ta.length, pos + ta.length + 5) :: spans) =
            unreplaced replacements (index + 1) spans := by
          simp [unreplaced, List.zipIdx_cons, hrepl]
        rw [hskip, masks, heldTokens, hfirst, tokens_eq_nil hu, Reader.length_read, hlen, List.nil_append]
        exact (hc.held _).imp fun _ _ hmoved => moved_cons hmoved
      · intro p hp
        rcases List.mem_cons.mp hp with rfl | hp
        · exact ⟨index, hrepl⟩
        · exact hc.filled p hp
    | none =>
      rw [cut_none hrepl]
      generalize cut replacements (index + 1) (pos + ta.length + 5) spans tb = c at *
      refine ⟨?_, reads_open hcode hc.reads, ?_, fun before hb => ?_, ?_, fun target => ?_, hc.filled⟩
      · rw [← hc.text]
        simp [weave]
      · rw [segmentMask_open hcode, hta, ← hc.mask]
        simp [weave]
      · have hsplit : before ++ (ta ++ hole ++ tb) = before ++ ta ++ hole ++ tb := by simp
        rw [List.zipIdx_cons, List.foldr_cons, hsplit, hinner before hb, fillSpan_none hrepl]
        simp [weave]
      · rw [segmentMask_open hcode, hta]
        exact framed_open hc.framed
      · have htake : unreplaced replacements index ((pos + ta.length, pos + ta.length + 5) :: spans) =
            ((pos + ta.length, pos + ta.length + 5), index) :: unreplaced replacements (index + 1) spans := by
          simp [unreplaced, List.zipIdx_cons, hrepl]
        rw [htake, segmentMask_open hcode, hta, heldTokens_open hu hstarts hends', hlen]
        refine .cons moved_own ((hc.held _).imp fun _ _ hmoved => moved_before ?_)
        simpa [hole, Nat.add_assoc] using hmoved

end LeanFlow.Source
