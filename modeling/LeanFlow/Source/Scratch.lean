import LeanFlow.General.Except
import LeanFlow.Goals.Dag
import LeanFlow.Source.Document

/-! Candidate sources and what a job leaves in its scratch file.

`extract_scratch_replacements` reads the edits of the given holes back from a
scratch file whose other bytes are unchanged. The source compiles a pattern of
escaped literals and lazy groups; `fillGroups` is its first match: each group is
as short as the rest of the pattern allows, tried from the left. -/
namespace LeanFlow.Source
open General Goals

variable (C : CharClass)

/-- Build the exact source for a candidate without writing canonical files. -/
def declaration_source (document : SourceDocument) (node : Node) (candidate : Option (List Text)) :
    Except ValueError Text :=
  if candidate.any fun c => c.length ≠ node.holes.length then
    .error ⟨s!"expected {node.holes.length} sorry replacements for {node.name}"⟩
  else document.render C (node.holes.zip (candidate.getD []))

/-! ### Reading edits back -/

/-- The literals around the selected spans: the text before each, and the text after the last. -/
def literals (before : Text) : Nat → List (Nat × Nat) → Text × List Text
  | cursor, [] => (before.drop cursor, [])
  | cursor, (start, stop) :: spans =>
    ((before.drop cursor).take (start - cursor),
      (literals before stop spans).1 :: (literals before stop spans).2)

/-- The shortest group, from `size` characters on, whose rest `after` accepts. -/
def firstGroup (after : Text → Option (List Text)) (text : Text) (size : Nat) : Nat → Option (List Text)
  | 0 => none
  | fuel + 1 =>
    match after (text.drop size) with
    | some groups => some (text.take size :: groups)
    | none => firstGroup after text (size + 1) fuel

/-- A full match of a group before each of the literals. -/
def fillGroups : List Text → Text → Option (List Text)
  | [], text => if text = [] then some [] else none
  | literal :: rest, text =>
    firstGroup (fun t => if literal.isPrefixOf t then fillGroups rest (t.drop literal.length) else none)
      text 0 (text.length + 1)

def extract_scratch_replacements (before after : Text) (holes : List Nat) :
    Except ValueError (Option (List Text)) := do
  let spans ← sorry_spans C before
  let selected := holes.filterMap (spans[·]?)
  if selected.length ≠ holes.length ∨ selected = [] then .ok none
  else
    let (first, rest) := literals before 0 selected
    if first.isPrefixOf after then .ok (fillGroups rest (after.drop first.length)) else .ok none

example : extract_scratch_replacements .ascii "a := (sorry, sorry)".toList
    "a := (b, c, d)".toList [0, 1] = .ok (some ["b".toList, "c, d".toList]) := by decide +kernel

variable {C}

/-! ### What renders -/

/-- What stands in a dictionary that others are laid over. -/
theorem mem_foldl_set {overrides : List (Nat × Text)} {r : Dict Nat Text} {entry : Nat × Text}
    (h : entry ∈ (overrides.foldl (fun r p => r.set p.1 p.2) r).items) :
    entry ∈ overrides ∨ entry ∈ r.items := by
  induction overrides generalizing r with
  | nil => exact Or.inr h
  | cons p overrides ih =>
    obtain ⟨k, v⟩ := entry
    rcases ih h with h | h
    · exact Or.inl (List.mem_cons_of_mem _ h)
    · rw [← Dict.get?_eq_some_iff, Dict.get?_set] at h
      split at h
      · rename_i hk
        obtain rfl := Option.some.inj h
        exact Or.inl (hk ▸ List.mem_cons_self ..)
      · exact Or.inr ((Dict.get?_eq_some_iff _ _ _).mp h)

theorem get?_foldl_set {overrides : List (Nat × Text)} {r : Dict Nat Text} {key : Nat}
    (h : key ∉ overrides.map (·.1)) :
    (overrides.foldl (fun r p => r.set p.1 p.2) r).get? key = r.get? key := by
  induction overrides generalizing r with
  | nil => rfl
  | cons p overrides ih =>
    rw [List.map_cons, List.mem_cons, not_or] at h
    rw [List.foldl_cons, ih h.2, Dict.get?_set_ne _ _ h.1]

/-- Overrides of distinct holes all take effect. -/
theorem mem_foldl_set_of_mem {overrides : List (Nat × Text)} {r : Dict Nat Text} {entry : Nat × Text}
    (hdistinct : (overrides.map (·.1)).Nodup) (h : entry ∈ overrides) :
    entry ∈ (overrides.foldl (fun r p => r.set p.1 p.2) r).items := by
  induction overrides generalizing r with
  | nil => cases h
  | cons p overrides ih =>
    rw [List.map_cons, List.nodup_cons] at hdistinct
    rcases List.mem_cons.mp h with rfl | h
    · rw [← Dict.get?_eq_some_iff, List.foldl_cons, get?_foldl_set hdistinct.1, Dict.get?_set_self]
    · exact ih hdistinct.2 h

/-- A document renders just when every replacement passes the gate and names a hole. -/
theorem render_ok {d : SourceDocument} {overrides : List (Nat × Text)} :
    (∃ text, d.render C overrides = .ok text) ↔
      (∀ p ∈ (d.merged overrides).items, validate_hole_replacement C p.2 = .ok ()) ∧
        ∃ spans, holeSpans C (d.merged overrides) d.baseline = .ok spans ∧
          ∀ key ∈ (d.merged overrides).keys, key < spans.length := by
  have hany (spans : List (Nat × Nat)) : (d.merged overrides).keys.any (spans.length ≤ ·) = false ↔
      ∀ key ∈ (d.merged overrides).keys, key < spans.length := by simp
  constructor
  · rintro ⟨text, h⟩
    rw [SourceDocument.render] at h
    obtain ⟨_, hvalid, h⟩ := bind_eq_ok.mp h
    obtain ⟨spans, hspans, h⟩ := bind_eq_ok.mp h
    refine ⟨forM_eq_ok.mp hvalid, spans, hspans, (hany spans).mp ?_⟩
    split_ifs at h with hkeys
    exact Bool.eq_false_iff.mpr hkeys
  · rintro ⟨hvalid, spans, hspans, hkeys⟩
    rw [← hany] at hkeys
    refine ⟨insertImports C d.modules (splice (d.merged overrides).get? spans d.baseline), ?_⟩
    rw [SourceDocument.render]
    refine bind_eq_ok.mpr ⟨(), forM_eq_ok.mpr hvalid, bind_eq_ok.mpr ⟨spans, hspans, ?_⟩⟩
    rw [hkeys, if_neg (by simp)]

/-- In a document that renders, a candidate for distinct open holes renders just when
each of its proofs passes the gate. -/
theorem declaration_source_ok {document : SourceDocument} {node : Node} {before : Text}
    {spans : List (Nat × Nat)} {proofs : List Text}
    (hbefore : declaration_source C document node none = .ok before)
    (hspans : sorry_spans C document.baseline = .ok spans)
    (hopen : ∀ hole ∈ node.holes, hole ∈ open_holes document.replacements spans)
    (hdistinct : node.holes.Nodup) (hlength : proofs.length = node.holes.length) :
    (∃ source, declaration_source C document node (some proofs) = .ok source) ↔
      ∀ proof ∈ proofs, validate_hole_replacement C proof = .ok () := by
  have hrender : declaration_source C document node (some proofs) =
      document.render C (node.holes.zip proofs) := by
    simp [declaration_source, hlength]
  have hbefore' : document.render C [] = .ok before := by
    simpa [declaration_source] using hbefore
  obtain ⟨hvalid, spans', hspans', hkeys⟩ := render_ok.mp ⟨before, hbefore'⟩
  have hmerged : document.merged [] = document.replacements := rfl
  rw [hmerged] at hvalid hspans' hkeys
  have hzip : (node.holes.zip proofs).map (·.1) = node.holes := List.map_fst_zip (by omega)
  rw [hrender, render_ok]
  constructor
  · rintro ⟨hall, -⟩ proof hproof
    obtain ⟨n, hn, rfl⟩ := List.mem_iff_getElem.mp hproof
    have hmem : (node.holes[n], proofs[n]) ∈ node.holes.zip proofs :=
      List.mem_iff_getElem.mpr ⟨n, by simp; omega, by simp⟩
    exact hall _ (mem_foldl_set_of_mem (by rw [hzip]; exact hdistinct) hmem)
  · intro hproofs
    refine ⟨fun p hp => ?_, ?_⟩
    · rcases mem_foldl_set hp with hp | hp
      · exact hproofs _ (List.of_mem_zip hp).2
      · exact hvalid p hp
    · by_cases hempty : (document.merged (node.holes.zip proofs)).items = []
      · refine ⟨[], by rw [holeSpans, if_pos hempty], fun key hkey => ?_⟩
        rw [Dict.keys, hempty] at hkey
        cases hkey
      · refine ⟨spans, by rw [holeSpans, if_neg hempty, hspans], fun key hkey => ?_⟩
        obtain ⟨value, hvalue⟩ := (Dict.mem_keys_iff _ _).mp hkey
        rcases mem_foldl_set ((Dict.get?_eq_some_iff _ _ _).mp hvalue) with hmem | hmem
        · have hhole := hopen key (List.of_mem_zip hmem).1
          rw [open_holes, List.mem_filter, List.mem_range] at hhole
          exact hhole.1
        · have hne : document.replacements.items ≠ [] := List.ne_nil_of_mem hmem
          have hspans'' : spans' = spans := by
            rw [holeSpans, if_neg hne] at hspans'
            exact Except.ok.inj (hspans'.symm.trans hspans)
          rw [← hspans'']
          exact hkeys key ((Dict.mem_keys_iff _ _).mpr ⟨value, (Dict.get?_eq_some_iff _ _ _).mpr hmem⟩)

end LeanFlow.Source
