import LeanFlow.General.Except
import LeanFlow.Source.Segments
import LeanFlow.Source.ImportLines

/-! What a rendered document keeps of its baseline.

`Contained` is the promise: on every untouched segment the mask of the rendered
text is the mask of the baseline, the `sorry` tokens there are the unreplaced
holes in order, and the position of a hole among the unreplaced ones finds it in
the rendered text. A replacement may break it (`comment_leaks`), because the gate
reads each replacement on its own: one that ends in a line comment swallows the
rest of the protected line, one that ends in `-` or `/` may open a comment with
the character after it. Without such a junction it holds (`render_contained`). -/
namespace LeanFlow.Source
open General

variable (C : CharClass)

/-! ### The untouched segments of a document -/

/-- Lines inserted at `p` move a segment or split it. -/
def Segment.split (p n : Nat) (g : Segment) : List Segment :=
  if g.target + g.length ≤ p then [g]
  else if p ≤ g.target then [⟨g.source, g.target + n, g.length⟩]
  else [⟨g.source, g.target, p - g.target⟩,
    ⟨g.source + (p - g.target), p + n, g.length - (p - g.target)⟩]

namespace SourceDocument

variable (d : SourceDocument) (overrides : List (Nat × Text)) (base : Text)

/-- The document with its holes filled, before import lines; `base` is the mask of the baseline. -/
def body : Text := splice (d.merged overrides).get? (tokens C none 0 base) d.baseline

/-- The baseline cut at the document's replaced holes. -/
def pieces : Text × List (Text × Text) :=
  cut (d.merged overrides).get? 0 0 (tokens C none 0 base) d.baseline

/-- The untouched segments of the baseline and where they stand in the rendered text. -/
def untouched : List Segment :=
  (segments 0 0 (d.pieces C overrides base).1 (d.pieces C overrides base).2).flatMap
    (Segment.split (preludeEnd C (d.body C overrides base)) (importLines d.modules).length)

/-- **Containment**: what the protected text keeps in a rendered text. -/
structure Contained (text : Text) : Prop where
  masked : ∃ mask, lean_code_mask text = .ok mask ∧
    ∀ g ∈ d.untouched C overrides base, ∀ k < g.length, mask[g.target + k]? = base[g.source + k]?
  spans : ∃ spans, sorry_spans C text = .ok spans ∧
    List.Forall₂ (Moved (d.untouched C overrides base))
      ((unreplaced (d.merged overrides).get? 0 (tokens C none 0 base)).map (·.1))
      (spans.filter fun span => (d.untouched C overrides base).any (·.holds span))
  selects : (∀ p ∈ (d.merged overrides).items, sorry_spans C p.2 = .ok []) →
    ∀ e ∈ unreplaced (d.merged overrides).get? 0 (tokens C none 0 base),
      ∃ spans span, sorry_spans C text = .ok spans ∧
        spans[(open_holes (d.merged overrides) (tokens C none 0 base)).idxOf e.2]? = some span ∧
        Moved (d.untouched C overrides base) e.1 span

end SourceDocument

variable {C}

/-! ### Inserting the import lines -/

theorem atLine_importLines (modules : List String) : AtLine (importLines modules) := by
  induction modules using List.reverseRecOn with
  | nil => exact Or.inl rfl
  | append_singleton l m _ => exact Or.inr ⟨importLines l ++ ("import ".toList ++ m.toList), by simp [importLines]⟩

/-- Both sides of inserted lines keep what they agree on. -/
theorem split_mask {x y z base : Text} {g g' : Segment}
    (h : ∀ k < g.length, (x ++ z)[g.target + k]? = base[g.source + k]?)
    (hg : g' ∈ g.split x.length y.length) {k : Nat} (hk : k < g'.length) :
    (x ++ y ++ z)[g'.target + k]? = base[g'.source + k]? := by
  have hbefore {q : Nat} (hq : q < x.length) : (x ++ y ++ z)[q]? = (x ++ z)[q]? := by
    rw [List.append_assoc, List.getElem?_append_left hq, List.getElem?_append_left hq]
  have hbehind {q : Nat} (hq : x.length ≤ q) : (x ++ y ++ z)[q + y.length]? = (x ++ z)[q]? := by
    rw [List.getElem?_append_right (by simp; omega), List.getElem?_append_right hq]
    congr 1
    simp only [List.length_append]
    omega
  rw [Segment.split] at hg
  split_ifs at hg with h1 h2
  · rw [List.mem_singleton.mp hg] at hk ⊢
    rw [hbefore (by omega), h k hk]
  · rw [List.mem_singleton.mp hg] at hk ⊢
    dsimp only at hk ⊢
    rw [Nat.add_right_comm, hbehind (by omega), h k hk]
  · simp only [List.mem_cons, List.not_mem_nil, or_false] at hg
    rcases hg with rfl | rfl
    · dsimp only at hk ⊢
      rw [hbefore (by omega), h k (by omega)]
    · dsimp only at hk ⊢
      have hq : x.length + y.length + k = g.target + (x.length - g.target + k) + y.length := by omega
      rw [hq, hbehind (by omega), h _ (by omega), Nat.add_assoc]

/-- A token is in a segment before the lines are inserted just when it is afterwards. -/
theorem split_holds {p n : Nat} {span : Nat × Nat} (hlen : span.2 = span.1 + 5)
    (hp : span.2 ≤ p ∨ p ≤ span.1) (g : Segment) :
    (g.split p n).any (·.holds (place p n span)) = g.holds span := by
  rw [Bool.eq_iff_iff]
  simp only [Segment.split, place]
  split_ifs <;> simp [Segment.holds] <;> omega

/-- A token that moves with a segment still does when the lines are inserted. -/
theorem split_moved {p n : Nat} {segs : List Segment} {span span' : Nat × Nat}
    (hlen : span.2 = span.1 + 5) (hp : span'.2 ≤ p ∨ p ≤ span'.1) (h : Moved segs span span') :
    Moved (segs.flatMap (Segment.split p n)) span (place p n span') := by
  obtain ⟨g, hg, hlow, hhigh, rfl⟩ := h
  have hmem {g' : Segment} (h : g' ∈ g.split p n) : g' ∈ segs.flatMap (Segment.split p n) :=
    List.mem_flatMap.mpr ⟨g, hg, h⟩
  dsimp only at hp
  by_cases h1 : g.target + g.length ≤ p
  · refine ⟨g, hmem (by simp [Segment.split, h1]), hlow, hhigh, ?_⟩
    rw [place, if_pos (by dsimp only; omega)]
  · by_cases h2 : p ≤ g.target
    · refine ⟨⟨g.source, g.target + n, g.length⟩, hmem (by simp [Segment.split, h1, h2]), hlow, hhigh, ?_⟩
      rw [place, if_neg (by dsimp only; omega)]
      simp only [Prod.mk.injEq]
      omega
    · by_cases h3 : g.target + (span.1 - g.source) < p
      · refine ⟨⟨g.source, g.target, p - g.target⟩, hmem (by simp [Segment.split, h1, h2]), hlow, ?_, ?_⟩
        · dsimp only
          omega
        · rw [place, if_pos h3]
      · refine ⟨⟨g.source + (p - g.target), p + n, g.length - (p - g.target)⟩,
          hmem (by simp [Segment.split, h1, h2]), ?_, ?_, ?_⟩
        · dsimp only
          omega
        · dsimp only
          omega
        · rw [place, if_neg h3]
          simp only [Prod.mk.injEq]
          omega

/-! ### Numbers of unreplaced holes -/

theorem unreplaced_numbers (replacements : Dict Nat Text) (spans : List (Nat × Nat)) :
    (unreplaced replacements.get? 0 spans).map (·.2) = open_holes replacements spans := by
  rw [unreplaced, open_holes, List.range_eq_range', ← List.zipIdx_map_snd 0 spans, List.filter_map]
  rfl

/-- The position of an unreplaced hole among them. -/
theorem unreplaced_position {replacements : Dict Nat Text} {spans : List (Nat × Nat)}
    {e : (Nat × Nat) × Nat} (h : e ∈ unreplaced replacements.get? 0 spans) :
    (unreplaced replacements.get? 0 spans)[(open_holes replacements spans).idxOf e.2]? = some e := by
  obtain ⟨k, hk, rfl⟩ := List.mem_iff_getElem.mp h
  have hnodup : (open_holes replacements spans).Nodup := List.nodup_range.filter _
  have hk' : k < (open_holes replacements spans).length := by
    rw [← unreplaced_numbers, List.length_map]
    exact hk
  have hnumber : ((unreplaced replacements.get? 0 spans)[k]).2 = (open_holes replacements spans)[k] := by
    simp only [← unreplaced_numbers, List.getElem_map]
  rw [hnumber, hnodup.idxOf_getElem k hk', List.getElem?_eq_getElem hk]

/-- What corresponds to an entry stands at its place. -/
theorem forall₂_getElem? {α β : Type} {R : α → β → Prop} {l : List α} {l' : List β}
    (h : List.Forall₂ R l l') {k : Nat} {x : α} (hx : l[k]? = some x) : ∃ y, l'[k]? = some y ∧ R x y := by
  induction h generalizing k with
  | nil => simp at hx
  | @cons a b l l' hab _ ih =>
    cases k with
    | zero =>
      obtain rfl : a = x := by simpa using hx
      exact ⟨b, rfl, hab⟩
    | succ k => exact ih (by simpa using hx)

theorem forall₂_imp_mem {α β : Type} {R S : α → β → Prop} {l : List α} {l' : List β}
    (h : List.Forall₂ R l l') (H : ∀ a ∈ l, ∀ b ∈ l', R a b → S a b) : List.Forall₂ S l l' := by
  induction h with
  | nil => exact .nil
  | cons hab _ ih =>
    exact .cons (H _ (List.mem_cons_self ..) _ (List.mem_cons_self ..) hab)
      (ih fun a ha b hb => H a (List.mem_cons_of_mem _ ha) b (List.mem_cons_of_mem _ hb))

/-! ### Rendering -/

section Render
variable {d : SourceDocument} {overrides : List (Nat × Text)} {base text : Text}

theorem spans_of_mask {source mask : Text} (h : lean_code_mask source = .ok mask) :
    sorry_spans C source = .ok (tokens C none 0 mask) := by
  rw [sorry_spans, h]
  rfl

theorem splice_none {replacements : Nat → Option Text} (h : ∀ i, replacements i = none)
    (spans : List (Nat × Nat)) (t : Text) : splice replacements spans t = t := by
  rw [splice]
  induction spans.zipIdx with
  | nil => rfl
  | cons e entries ih =>
    obtain ⟨span, i⟩ := e
    rw [List.foldr_cons, ih, fillSpan_none (h i)]

/-- A rendered document is its filled body with the import lines inserted, and every
replacement in it passed the gate. -/
theorem render_eq (h : d.render C overrides = .ok text) (hbase : lean_code_mask d.baseline = .ok base) :
    text = (d.body C overrides base).take (preludeEnd C (d.body C overrides base)) ++
        importLines d.modules ++ (d.body C overrides base).drop (preludeEnd C (d.body C overrides base)) ∧
      ∀ p ∈ (d.merged overrides).items, validate_hole_replacement C p.2 = .ok () := by
  rw [SourceDocument.render] at h
  obtain ⟨_, hvalid, h⟩ := bind_eq_ok.mp h
  obtain ⟨spans, hspans, h⟩ := bind_eq_ok.mp h
  refine ⟨?_, forM_eq_ok.mp hvalid⟩
  have hbody : splice (d.merged overrides).get? spans d.baseline = d.body C overrides base := by
    rw [holeSpans] at hspans
    split at hspans
    · rename_i hempty
      have hnone (i : Nat) : (d.merged overrides).get? i = none := by
        rw [Dict.get?, hempty]
        rfl
      rw [SourceDocument.body, splice_none hnone, splice_none hnone]
    · rw [spans_of_mask hbase] at hspans
      cases hspans
      rfl
  rw [hbody] at h
  split_ifs at h
  cases h
  rw [insertImports]
  split_ifs with hmodules
  · simp [hmodules, importLines]
  · rfl

/-- What the scan is in where the import lines are inserted. -/
def SourceDocument.preludeMode (C : CharClass) (d : SourceDocument) (overrides : List (Nat × Text)) (base : Text) : Mode :=
  (scanner.read .code ((d.body C overrides base).take (preludeEnd C (d.body C overrides base))) none).2

/-- The condition under which a document contains its replacements: every junction of a
replacement with the protected text is clean and the import lines are plain where they are inserted. -/
structure SourceDocument.Fits (C : CharClass) (d : SourceDocument) (overrides : List (Nat × Text))
    (base : Text) : Prop where
  junctions : Clean (d.pieces C overrides base).1 (d.pieces C overrides base).2
  imports : PlainLines C (d.preludeMode C overrides base) (importLines d.modules)

/-- The segments of the filled body, before the import lines. -/
def SourceDocument.bodySegments (C : CharClass) (d : SourceDocument) (overrides : List (Nat × Text))
    (base : Text) : List Segment :=
  segments 0 0 (d.pieces C overrides base).1 (d.pieces C overrides base).2

/-- How the mask of a rendered text is laid out: the lines `y` stand between the two parts
of the body's mask `x ++ z`, which agrees with the baseline's mask on the segments. -/
structure Layout (C : CharClass) (d : SourceDocument) (overrides : List (Nat × Text))
    (base text x y z : Text) : Prop where
  mask : lean_code_mask text = .ok (x ++ y ++ z)
  line : AtLine x
  untouched : d.untouched C overrides base =
    (d.bodySegments C overrides base).flatMap (Segment.split x.length y.length)
  inserted : tokens C none 0 (x ++ y ++ z) = (tokens C none 0 (x ++ z)).map (place x.length y.length)
  agrees : ∀ g ∈ d.bodySegments C overrides base, ∀ k < g.length,
    (x ++ z)[g.target + k]? = base[g.source + k]?
  held : List.Forall₂ (Moved (d.bodySegments C overrides base))
    ((unreplaced (d.merged overrides).get? 0 (tokens C none 0 base)).map (·.1))
    ((tokens C none 0 (x ++ z)).filter fun span =>
      (d.bodySegments C overrides base).any (·.holds span))
  free : (∀ p ∈ (d.merged overrides).items, sorry_spans C p.2 = .ok []) →
    (tokens C none 0 (x ++ z)).filter
      (fun span => (d.bodySegments C overrides base).any (·.holds span)) = tokens C none 0 (x ++ z)

theorem mem_masks {holes : List (Text × Text)} {p : Text × Text} (h : p ∈ masks holes) :
    ∃ q ∈ holes, p.1 = (scanner.read .code q.1 none).1 := by
  induction holes with
  | nil => cases h
  | cons q holes ih =>
    obtain ⟨r, s⟩ := q
    rcases List.mem_cons.mp h with rfl | h
    · exact ⟨(r, s), List.mem_cons_self .., rfl⟩
    · obtain ⟨q, hq, hp⟩ := ih h
      exact ⟨q, List.mem_cons_of_mem _ hq, hp⟩

/-- A document that fits is laid out so. -/
theorem exists_layout (hrender : d.render C overrides = .ok text)
    (hbase : lean_code_mask d.baseline = .ok base) (hfits : d.Fits C overrides base) :
    ∃ x y z, Layout C d overrides base text x y z := by
  obtain ⟨htext, hvalid⟩ := render_eq hrender hbase
  obtain ⟨hread, hend⟩ := mask_eq_ok.mp hbase
  have hcut : CutOf C (d.merged overrides).get? 0 0 none (tokens C none 0 base) d.baseline base
      (d.pieces C overrides base).1 (d.pieces C overrides base).2 :=
    cut_spec _ _ 0 0 none d.baseline base rfl hread hend
  have hitem : ∀ p ∈ (d.pieces C overrides base).2, ∃ i, (i, p.1) ∈ (d.merged overrides).items := by
    intro p hp
    obtain ⟨i, hi⟩ := hcut.filled p hp
    exact ⟨i, (Dict.get?_eq_some_iff _ _ _).mp hi⟩
  have hended : ∀ p ∈ (d.pieces C overrides base).2,
      (scanner.read .code p.1 none).2.unterminated = none := by
    intro p hp
    obtain ⟨i, hi⟩ := hitem p hp
    obtain ⟨mask, hmask⟩ := mask_of_validate C (hvalid _ hi)
    exact (mask_eq_ok.mp hmask).2
  have hweave : d.body C overrides base =
      weave (d.pieces C overrides base).1 (d.pieces C overrides base).2 := hcut.splice [] rfl
  obtain ⟨hbody, hbodyEnd⟩ := clean_read hcut.reads hfits.junctions hended
  obtain ⟨x, y, z, m, hplain, hlines, hx, hxlen, hylen, htokens⟩ :=
    insert_lines (b := (d.body C overrides base).drop (preludeEnd C (d.body C overrides base)))
      (take_preludeEnd (C := C) (d.body C overrides base)) (atLine_importLines d.modules) hfits.imports
  have hposition : preludeEnd C (d.body C overrides base) = x.length := by
    rw [hxlen, List.length_take]
    exact (Nat.min_eq_left (preludeEnd_le _)).symm
  rw [List.take_append_drop, hweave] at hplain
  rw [← htext] at hlines
  rw [← hylen, ← hxlen] at htokens
  have hxz : (scanner.read .code (weave (d.pieces C overrides base).1
      (d.pieces C overrides base).2) none).1 = x ++ z := by rw [hplain]
  have hm : m.unterminated = none := by rw [← hbodyEnd, hplain]
  rw [hxz] at hbody
  have hfilter := filter_framed hcut.framed 0 0
  rw [segments_masks] at hfilter
  refine ⟨x, y, z, mask_eq_ok.mpr (by rw [hlines]; exact ⟨rfl, hm⟩), hx, ?_, htokens, fun g hg k hk => ?_,
    ?_, fun hfree => ?_⟩
  · rw [SourceDocument.untouched, hposition, hylen]
    rfl
  · rw [← hxz, masked_segments hcut.reads hfits.junctions hended hg hk]
    rw [hcut.mask]
  · rw [hbody]
    exact hfilter.symm ▸ hcut.held 0
  · rw [hbody]
    refine hfilter.trans (tokens_filled hcut.framed (fun p hp => ?_) 0).symm
    obtain ⟨q, hq, hp⟩ := mem_masks hp
    obtain ⟨i, hi⟩ := hitem q hq
    obtain ⟨mask, hmask⟩ := mask_of_validate C (hvalid _ hi)
    have hspans := hfree _ hi
    rw [spans_of_mask hmask] at hspans
    rw [hp, (mask_eq_ok.mp hmask).1]
    exact Except.ok.inj hspans

/-- The tokens of a rendered text in its untouched segments. -/
theorem Layout.moved {x y z : Text} (h : Layout C d overrides base text x y z) :
    List.Forall₂ (Moved (d.untouched C overrides base))
      ((unreplaced (d.merged overrides).get? 0 (tokens C none 0 base)).map (·.1))
      (((tokens C none 0 (x ++ z)).filter fun span =>
        (d.bodySegments C overrides base).any (·.holds span)).map (place x.length y.length)) := by
  rw [List.forall₂_map_right_iff, h.untouched]
  refine forall₂_imp_mem h.held fun a ha b hb hmoved => ?_
  obtain ⟨e, he, rfl⟩ := List.mem_map.mp ha
  have hspan : e.1 ∈ tokens C none 0 base := by
    exact List.fst_mem_of_mem_zipIdx (List.mem_of_mem_filter he)
  exact split_moved (tokens_bounds hspan).2.1 (tokens_atLine h.line (List.mem_of_mem_filter hb)) hmoved

theorem Layout.filter {x y z : Text} (h : Layout C d overrides base text x y z) :
    (tokens C none 0 (x ++ y ++ z)).filter (fun span => (d.untouched C overrides base).any (·.holds span)) =
      ((tokens C none 0 (x ++ z)).filter fun span =>
        (d.bodySegments C overrides base).any (·.holds span)).map (place x.length y.length) := by
  rw [h.inserted, List.filter_map]
  congr 1
  refine List.filter_congr fun span hspan => ?_
  rw [Function.comp_apply, h.untouched, List.any_flatMap]
  congr 1
  funext g
  exact split_holds (tokens_bounds hspan).2.1 (tokens_atLine h.line hspan) g

end Render

/-! ### A pair with one hole filled -/

/-- A pair of holes, the first filled. -/
def pairDocument (replacement : Text) : SourceDocument where
  path := "T.lean"
  baseline := "theorem t : T := (sorry, sorry)\n".toList
  replacements := Dict.empty.set 0 replacement

/-- The same with a module that has a hyphen in its name imported. -/
def importingPair (replacement : Text) : SourceDocument := { pairDocument replacement with imports := ["LeanFlowProofs.helper-1"] }

end LeanFlow.Source
