import LeanFlow.Source.Containment

/-! The untouched segments of a filled text.

A clean cut masks every segment as the baseline does (`masked_segments`), keeps
exactly the unreplaced holes as tokens of the segments (`held_segments`) and,
when no replacement has a token of its own, has no other tokens
(`tokens_filled`). -/
namespace LeanFlow.Source
open General

variable {C : CharClass}

theorem length_segmentMask (s : Text) (holes : List (Text × Text)) :
    (segmentMask s holes).length = s.length := Reader.length_read ..

/-- The masks of the parts stand where the parts do. -/
theorem segments_masks (source target : Nat) (first : Text) (holes : List (Text × Text)) :
    segments source target (segmentMask first holes) (masks holes) =
      segments source target first holes := by
  induction holes generalizing source target first with
  | nil => simp [segments, masks, length_segmentMask]
  | cons p holes ih =>
    obtain ⟨r, s⟩ := p
    rw [masks, segments, segments, length_segmentMask, Reader.length_read, ih]

/-- Segments come in order. -/
theorem segments_start {source target : Nat} {first : Text} {holes : List (Text × Text)}
    {segment : Segment} (h : segment ∈ segments source target first holes) :
    target ≤ segment.target := by
  induction holes generalizing source target first with
  | nil =>
    rw [segments, List.mem_singleton] at h
    rw [h]
  | cons p holes ih =>
    obtain ⟨r, s⟩ := p
    rw [segments, List.mem_cons] at h
    rcases h with rfl | h
    · exact Nat.le_refl _
    · have := ih h
      omega

/-! ### The mask of the segments -/

/-- A filled text and the original agree on every segment. -/
theorem weave_segments (before before' : Text) {first : Text} {holes : List (Text × Text)}
    {segment : Segment}
    (h : segment ∈ segments before'.length before.length first holes) {k : Nat}
    (hk : k < segment.length) :
    (before ++ weave first holes)[segment.target + k]? =
      (before' ++ weave first (original holes))[segment.source + k]? := by
  induction holes generalizing first before before' with
  | nil =>
    rw [segments, List.mem_singleton] at h
    subst h
    rw [List.getElem?_append_right (Nat.le_add_right ..),
      List.getElem?_append_right (Nat.le_add_right ..), Nat.add_sub_cancel_left, Nat.add_sub_cancel_left]
    rfl
  | cons p holes ih =>
    obtain ⟨r, s⟩ := p
    rw [segments, List.mem_cons] at h
    rw [original_cons, weave_cons, weave_cons]
    rcases h with rfl | h
    · rw [List.getElem?_append_right (Nat.le_add_right ..),
        List.getElem?_append_right (Nat.le_add_right ..), Nat.add_sub_cancel_left,
        Nat.add_sub_cancel_left, List.getElem?_append_left hk, List.getElem?_append_left hk]
    · have hsource : before'.length + first.length + 5 = (before' ++ first ++ hole).length := by
        simp [hole, Nat.add_assoc]
      have htarget : before.length + first.length + r.length = (before ++ first ++ r).length := by
        simp [Nat.add_assoc]
      rw [hsource, htarget] at h
      simpa [List.append_assoc] using ih _ _ h

/-- **The segments of a clean cut are masked as in the baseline.** -/
theorem masked_segments {first : Text} {holes : List (Text × Text)} (hreads : Reads first holes)
    (hclean : Clean first holes)
    (hr : ∀ p ∈ holes, (scanner.read .code p.1 none).2.unterminated = none)
    {segment : Segment} (h : segment ∈ segments 0 0 first holes) {k : Nat} (hk : k < segment.length) :
    (scanner.read .code (weave first holes) none).1[segment.target + k]? =
      (weave (segmentMask first holes) (original (masks holes)))[segment.source + k]? := by
  rw [(clean_read hreads hclean hr).1]
  rw [← segments_masks] at h
  exact weave_segments [] [] h hk

/-! ### The tokens of the segments -/

/-- The first character after a hole, when the segment there is empty only at the end. -/
theorem head_weave {s : Text} {holes : List (Text × Text)} (h : endsToken C s.head? = true)
    (hempty : s = [] → holes = []) : endsToken C (weave s holes).head? = true := by
  cases s with
  | cons c s => simpa [weave] using h
  | nil =>
    rw [hempty rfl]
    rfl

/-- The tokens around a framed hole. -/
theorem tokens_framed {previous : Option Char} {x y x' : Text} {holes : List (Text × Text)}
    (hstarts : startsToken C (lastOr previous x) = true) (hends : endsToken C x'.head? = true)
    (hempty : x' = [] → holes = []) (pos : Nat) :
    tokens C previous pos (weave x ((y, x') :: holes)) =
      tokens C previous pos x ++ (tokens C (lastOr previous x) (pos + x.length) y ++
        tokens C (some 'y') (pos + x.length + y.length) (weave x' holes)) := by
  have hhead := head_weave hends hempty
  rw [weave_cons, tokens_append (apart_of_starts hstarts _), tokens_append (Or.inr hhead),
    tokens_previous hhead _ (some 'y')]

/-- A span in the text after a segment is not in it. -/
theorem not_holds {segment : Segment} {span : Nat × Nat} (hlen : span.2 = span.1 + 5)
    (h : segment.target + segment.length ≤ span.1) : segment.holds span = false := by
  simp only [Segment.holds, Bool.and_eq_false_iff, decide_eq_false_iff_not]
  omega

/-- The tokens of a framed text that lie in its segments. -/
theorem filter_framed {previous : Option Char} {first : Text} {holes : List (Text × Text)}
    (h : Framed C previous first holes) (source pos : Nat) :
    (tokens C previous pos (weave first holes)).filter
      (fun span => (segments source pos first holes).any (·.holds span)) =
        heldTokens C previous pos first holes := by
  induction h generalizing source pos with
  | @last previous x =>
    rw [List.filter_eq_self.mpr]
    · simp [weave, heldTokens]
    · intro span hspan
      obtain ⟨h1, h2, h3⟩ := tokens_bounds hspan
      simp only [weave, List.flatMap_nil, List.append_nil] at h3
      simp [segments, Segment.holds, h1, h3]
  | @hole previous x y x' holes hstarts hends hempty _ ih =>
    rw [tokens_framed hstarts hends hempty, heldTokens, List.filter_append, List.filter_append]
    have hfirst : (tokens C previous pos x).filter
        (fun span => (segments source pos x ((y, x') :: holes)).any (·.holds span)) =
          tokens C previous pos x := by
      rw [List.filter_eq_self]
      intro span hspan
      obtain ⟨h1, h2, h3⟩ := tokens_bounds hspan
      simp [segments, Segment.holds, h1, h3]
    have hinside : (tokens C (lastOr previous x) (pos + x.length) y).filter
        (fun span => (segments source pos x ((y, x') :: holes)).any (·.holds span)) = [] := by
      rw [List.filter_eq_nil_iff]
      intro span hspan
      obtain ⟨h1, h2, h3⟩ := tokens_bounds hspan
      rw [segments, List.any_cons, not_holds h2 h1, Bool.false_or, List.any_eq_true]
      rintro ⟨segment, hsegment, hholds⟩
      have hstart := segments_start hsegment
      simp only [Segment.holds, Bool.and_eq_true, decide_eq_true_eq] at hholds
      omega
    have hrest : (tokens C (some 'y') (pos + x.length + y.length) (weave x' holes)).filter
        (fun span => (segments source pos x ((y, x') :: holes)).any (·.holds span)) =
          heldTokens C (some 'y') (pos + x.length + y.length) x' holes := by
      rw [← ih (source + x.length + 5) (pos + x.length + y.length)]
      apply List.filter_congr
      intro span hspan
      obtain ⟨h1, h2, h3⟩ := tokens_bounds hspan
      rw [segments, List.any_cons, not_holds h2 (by dsimp only; omega), Bool.false_or]
    rw [hfirst, hinside, hrest, List.nil_append]

/-- A text with no token in any hole has no other tokens than its segments'. -/
theorem tokens_filled {previous : Option Char} {first : Text} {holes : List (Text × Text)}
    (h : Framed C previous first holes) (hfree : ∀ p ∈ holes, tokens C none 0 p.1 = []) (pos : Nat) :
    tokens C previous pos (weave first holes) = heldTokens C previous pos first holes := by
  induction h generalizing pos with
  | last => simp [weave, heldTokens]
  | @hole previous x y x' holes hstarts hends hempty _ ih =>
    rw [tokens_framed hstarts hends hempty, heldTokens,
      ih (fun p hp => hfree p (List.mem_cons_of_mem _ hp))]
    have hy : tokens C (lastOr previous x) 0 y = [] := by
      rw [tokens_starts (q := none) (by rw [hstarts]; rfl)]
      exact hfree (y, x') (List.mem_cons_self ..)
    rw [tokens_eq_nil hy, List.nil_append]

end LeanFlow.Source
