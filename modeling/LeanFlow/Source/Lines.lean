import LeanFlow.Source.Declarations
import Mathlib.Algebra.Order.BigOperators.Group.List
import Mathlib.Data.List.Induction

/-! The lines of a text, and the declarations that start at some of them.

The lines make up the text (`drop_offset`). The declarations of an index do not overlap:
the last line of one is before the first line of the next (`Indexed`), because going back
over attributes, comments and scopes never goes forward. -/
namespace LeanFlow.Source
open General

/-! ### Lines -/

/-- The length of some lines with their ends. -/
def extent : List (Text × Text) → Nat
  | [] => 0
  | line :: lines => (line.1 ++ line.2).length + extent lines

/-- Where the line of an index starts; lines are counted from zero. -/
def offset (text : Text) (i : Nat) : Nat := extent ((split_lines text).take i)

/-- A line has no end of line in it. -/
theorem line_plain {text : Text} : ∀ line ∈ splitlines text, ∀ c ∈ line, isLineEnd c = false := by
  unfold splitlines
  fun_induction split_lines text with
  | case1 => exact nofun
  | case2 rest ih => simpa using ih
  | case3 c rest h hend ih => simpa using ih
  | case4 c rest h hend hrest ih => simpa using hend
  | case5 c rest h hend line stop lines hrest ih =>
    rw [hrest] at ih
    simpa [hend] using ih

/-- There is at most one line more than there are ends of lines. -/
theorem length_splitlines_le (text : Text) : (splitlines text).length ≤ text.countP isLineEnd + 1 := by
  unfold splitlines
  rw [List.length_map]
  fun_induction split_lines text with
  | case1 => exact Nat.zero_le _
  | case2 rest ih =>
    have hr : isLineEnd '\r' = true := rfl
    have hn : isLineEnd '\n' = true := rfl
    simp only [List.length_cons, List.countP_cons, hr, hn, if_true]
    omega
  | case3 c rest h hend ih =>
    simp only [List.length_cons, List.countP_cons, hend, if_true]
    omega
  | case4 c rest h hend hrest ih => simp
  | case5 c rest h hend line stop lines hrest ih =>
    rw [hrest] at ih
    simpa [List.countP_cons, hend] using ih

theorem split_lines_nil {text : Text} (h : split_lines text = []) : text = [] := by
  fun_induction split_lines text with
  | case1 => rfl
  | case2 => cases h
  | case3 => cases h
  | case4 => cases h
  | case5 => cases h

/-- A line is where its offset says, and an end of a line or of the text is behind it. -/
theorem drop_offset {text : Text} {i : Nat} {line stop : Text} (h : (split_lines text)[i]? = some (line, stop)) :
    ∃ tail, text.drop (offset text i) = line ++ tail ∧ tail.head?.all isLineEnd = true := by
  unfold offset
  fun_induction split_lines text generalizing i line stop with
  | case1 => cases h
  | case2 rest ih =>
    cases i with
    | zero =>
      obtain ⟨rfl, rfl⟩ := Prod.mk.inj (Option.some.inj h)
      exact ⟨'\r' :: '\n' :: rest, rfl, rfl⟩
    | succ i =>
      obtain ⟨tail, htail, hend⟩ := ih h
      refine ⟨tail, ?_, hend⟩
      rw [List.take_succ_cons, extent, ← List.drop_drop]
      exact htail
  | case3 c rest hcr hend ih =>
    cases i with
    | zero =>
      obtain ⟨rfl, rfl⟩ := Prod.mk.inj (Option.some.inj h)
      exact ⟨c :: rest, rfl, hend⟩
    | succ i =>
      obtain ⟨tail, htail, hstop⟩ := ih h
      refine ⟨tail, ?_, hstop⟩
      rw [List.take_succ_cons, extent, ← List.drop_drop]
      exact htail
  | case4 c rest hcr hend hrest ih =>
    cases i with
    | zero =>
      obtain ⟨rfl, rfl⟩ := Prod.mk.inj (Option.some.inj h)
      exact ⟨[], by rw [split_lines_nil hrest]; rfl, rfl⟩
    | succ i => cases h
  | case5 c rest hcr hend first stop' lines hrest ih =>
    cases i with
    | zero =>
      obtain ⟨rfl, rfl⟩ := Prod.mk.inj (Option.some.inj h)
      obtain ⟨tail, htail, hstop⟩ := ih (i := 0) (by rw [hrest]; rfl)
      refine ⟨tail, ?_, hstop⟩
      rw [List.cons_append, ← htail]
      rfl
    | succ i =>
      obtain ⟨tail, htail, hstop⟩ := ih (i := i + 1) (by rw [hrest]; exact h)
      refine ⟨tail, ?_, hstop⟩
      rw [hrest, List.take_succ_cons, extent] at htail
      rw [List.take_succ_cons, extent, List.cons_append, List.length_cons, Nat.add_right_comm, List.drop_succ_cons]
      exact htail

theorem extent_append (lines more : List (Text × Text)) : extent (lines ++ more) = extent lines + extent more := by
  induction lines with
  | nil => rw [List.nil_append, extent, Nat.zero_add]
  | cons line lines ih => rw [List.cons_append, extent, extent, ih, Nat.add_assoc]

/-- The offsets of the lines, and that of the end. -/
theorem line_offsets_eq (text : Text) :
    line_offsets text = (List.range ((split_lines text).length + 1)).map (offset text) := by
  have hfold (lines : List (Text × Text)) :
      lines.foldl (fun offsets line => offsets ++ [offsets.getLast?.getD 0 + (line.1 ++ line.2).length]) [0] =
        (List.range (lines.length + 1)).map fun i => extent (lines.take i) := by
    induction lines using List.reverseRecOn with
    | nil => rfl
    | append_singleton lines line ih =>
      have hlast : ((List.range (lines.length + 1)).map fun i => extent (lines.take i)).getLast?.getD 0 = extent lines := by
        simp [List.range_succ]
      have hsame : (List.range (lines.length + 1)).map (fun i => extent ((lines ++ [line]).take i)) =
          (List.range (lines.length + 1)).map fun i => extent (lines.take i) := by
        refine List.map_congr_left fun i hi => ?_
        rw [List.take_append_of_le_length (Nat.le_of_lt_succ (List.mem_range.mp hi))]
      have hall : extent ((lines ++ [line]).take (lines.length + 1)) = extent lines + (line.1 ++ line.2).length := by
        rw [List.take_of_length_le (by simp), extent_append]
        rfl
      have hcount : (lines ++ [line]).length = lines.length + 1 := by simp
      rw [List.foldl_append, List.foldl_cons, List.foldl_nil, ih, hlast, hcount,
        List.range_succ (n := lines.length + 1), List.map_append, hsame,
        List.map_singleton, hall]
  exact hfold (split_lines text)

theorem length_line_offsets (text : Text) : (line_offsets text).length = (splitlines text).length + 1 := by
  rw [line_offsets_eq, List.length_map, List.length_range, splitlines, List.length_map]

/-- The table of offsets gives the offset of each line. -/
theorem line_offsets_get {text : Text} {i : Nat} (h : i ≤ (splitlines text).length) :
    (line_offsets text)[i]?.getD 0 = offset text i := by
  have hlt : i < (split_lines text).length + 1 := by
    rw [splitlines, List.length_map] at h
    omega
  simp [line_offsets_eq, hlt]

theorem offset_mono (text : Text) {i j : Nat} (h : i ≤ j) : offset text i ≤ offset text j := by
  have htake : (split_lines text).take j = (split_lines text).take i ++ ((split_lines text).take j).drop i := by
    have hsplit := List.take_append_drop i ((split_lines text).take j)
    rw [List.take_take, Nat.min_eq_left h] at hsplit
    exact hsplit.symm
  rw [offset, offset, htake, extent_append]
  exact Nat.le_add_right _ _

/-! ### Going back -/

/-- A walk back does not go forward. -/
theorem back_while_le (lines : List Text) (start : Nat) (p : Text → Bool) (value : Nat) :
    back_while lines start p value ≤ value := by
  induction value with
  | zero => exact Nat.le_refl _
  | succ value ih =>
    rw [back_while]
    split
    · exact Nat.le_succ_of_le ih
    · exact Nat.le_refl _

/-- What is hidden is left out, and nothing is put in. -/
theorem sublist_strip_comments (hidden : Hidden) (text : Text) :
    (strip_lean_comments_and_strings hidden text).Sublist text := by
  fun_induction strip_lean_comments_and_strings hidden text <;>
    first
    | exact List.Sublist.refl _
    | exact List.nil_sublist _
    | (rename_i ih; exact ih.cons_cons _)
    | (rename_i ih; exact (ih.cons _))
    | (rename_i ih; exact (ih.cons _).cons _)

/-- Joined lines have an end between any two. -/
theorem count_joinLines {lines : List Text} (h : ∀ line ∈ lines, ∀ c ∈ line, isLineEnd c = false) :
    (joinLines lines).countP isLineEnd = lines.length - 1 := by
  unfold joinLines
  induction lines with
  | nil => rfl
  | cons line lines ih =>
    obtain ⟨hline, hlines⟩ := List.forall_mem_cons.mp h
    have hnone : line.countP isLineEnd = 0 := by
      rw [List.countP_eq_zero]
      exact fun c hc => by simp [hline c hc]
    cases lines with
    | nil => simpa using hnone
    | cons next lines =>
      have hnewline : isLineEnd '\n' = true := rfl
      rw [List.intercalate_cons_cons, List.countP_append, List.countP_append, hnone, ih hlines]
      simp [hnewline]
      omega

section Trim

variable (C : CharClass)

theorem attribute_start_lt {sanitized : List Text} {n candidate : Nat} (h : attribute_start C sanitized n = some candidate) :
    candidate < n := by
  induction n with
  | zero => cases h
  | succ n ih =>
    rw [attribute_start] at h
    split at h
    · split at h
      · obtain rfl := Option.some.inj h
        exact Nat.lt_succ_self _
      · exact Nat.lt_succ_of_lt (ih h)
    · exact Nat.lt_succ_of_lt (ih h)

variable {lines : List Text}

/-- Comments are hidden first: what is left has no more lines than the region, so the line that
is found is above its end. -/
theorem skip_standalone_attribute_le (hlines : ∀ line ∈ lines, ∀ c ∈ line, isLineEnd c = false) (start value : Nat) :
    skip_standalone_attribute C lines start value ≤ value := by
  unfold skip_standalone_attribute
  split
  · exact Nat.le_refl _
  · set region := (lines.take value).drop (start - 1) with hregion
    set sanitized := splitlines (strip_lean_comments_and_strings .none (joinLines region)) with hsanitized
    have hplain : ∀ line ∈ region, ∀ c ∈ line, isLineEnd c = false := fun line hline =>
      hlines line (List.mem_of_mem_take (List.mem_of_mem_drop hline))
    have hcount := length_splitlines_le (strip_lean_comments_and_strings .none (joinLines region))
    have hsub := List.Sublist.countP_le (p := isLineEnd) (sublist_strip_comments .none (joinLines region))
    rw [count_joinLines hplain] at hsub
    rw [← hsanitized] at hcount
    have hlength : region.length ≤ value - (start - 1) := by
      rw [hregion, List.length_drop, List.length_take]
      omega
    dsimp only
    split
    · exact Nat.le_refl _
    · split
      · exact Nat.sub_le _ _
      · split
        · exact Nat.le_refl _
        · split
          · rename_i candidate hcandidate
            have hlt := attribute_start_lt C hcandidate
            omega
          · exact Nat.le_refl _

theorem skip_attributes_le (hlines : ∀ line ∈ lines, ∀ c ∈ line, isLineEnd c = false) (start fuel idx : Nat) :
    skip_attributes C lines start fuel idx ≤ idx := by
  induction fuel generalizing idx with
  | zero => exact Nat.le_refl _
  | succ fuel ih =>
    rw [skip_attributes]
    dsimp only
    split_ifs
    · exact Nat.le_refl _
    · exact Nat.le_refl _
    · exact (ih _).trans (skip_standalone_attribute_le C hlines start idx)

theorem comment_start_le {start idx before : Nat} (h : comment_start C lines start idx = some before) : before ≤ idx := by
  induction idx with
  | zero => cases h
  | succ idx ih =>
    rw [comment_start] at h
    split_ifs at h
    · obtain rfl := Option.some.inj h
      exact Nat.le_succ _
    · exact Nat.le_succ_of_le (ih h)

theorem skip_wrappers_le (start fuel idx : Nat) : skip_wrappers C lines start fuel idx ≤ idx := by
  induction fuel generalizing idx with
  | zero => exact Nat.le_refl _
  | succ fuel ih =>
    rw [skip_wrappers]
    split
    · exact (ih _).trans ((back_while_le ..).trans (Nat.sub_le _ _))
    · exact Nat.le_refl _

/-- One round walks back over blanks, attributes, comments and wrappers. -/
theorem trim_round_le (hlines : ∀ line ∈ lines, ∀ c ∈ line, isLineEnd c = false) (start idx : Nat) :
    (trim_round C lines start idx).1 ≤ idx := by
  unfold trim_round
  dsimp only
  set attributes := skip_blank_lines C lines start (skip_attributes C lines start (lines.length + 1) idx)
  set comments := skip_blank_lines C lines start
    (back_while lines start (fun line => "--".toList.isPrefixOf (strip C line)) attributes) with hcomments
  have hattributes : attributes ≤ idx := (back_while_le ..).trans (skip_attributes_le C hlines start _ idx)
  have hle : comments ≤ idx := by
    rw [hcomments]
    exact (back_while_le ..).trans ((back_while_le ..).trans hattributes)
  split
  · split
    · exact hle
    · rename_i before hbefore
      have hlt : before ≤ comments - 1 := by
        split at hbefore
        · exact (Option.some.inj hbefore).symm.le
        · exact comment_start_le C hbefore
      exact (skip_wrappers_le C start _ _).trans ((back_while_le ..).trans (by omega))
  · exact (skip_wrappers_le C start _ _).trans hle

theorem trim_rounds_le (hlines : ∀ line ∈ lines, ∀ c ∈ line, isLineEnd c = false) (start fuel idx : Nat) :
    trim_rounds C lines start fuel idx ≤ idx := by
  induction fuel generalizing idx with
  | zero => exact Nat.le_refl _
  | succ fuel ih =>
    rw [trim_rounds]
    dsimp only
    have hround := trim_round_le C hlines start idx
    split_ifs
    · exact Nat.le_refl _
    · exact hround
    · exact (ih _).trans hround

/-- A declaration ends where the next one starts, or before. -/
theorem trim_le (hlines : ∀ line ∈ lines, ∀ c ∈ line, isLineEnd c = false) {start : Nat} {next : Option Nat}
    (hstart : start ≤ lines.length) (hnext : ∀ line ∈ next, start < line) :
    trim_declaration_region_end C lines start next ≤ lines.length ∧
      ∀ line ∈ next, trim_declaration_region_end C lines start next < line := by
  unfold trim_declaration_region_end
  dsimp only
  cases next with
  | none =>
    have hrounds := trim_rounds_le C hlines start (lines.length + 1) (skip_blank_lines C lines start lines.length)
    have hblank : skip_blank_lines C lines start lines.length ≤ lines.length := back_while_le ..
    exact ⟨Nat.max_le.mpr ⟨hstart, hrounds.trans hblank⟩, nofun⟩
  | some line =>
    have hline := hnext line rfl
    dsimp only
    set stop := max start (min lines.length (line - 1)) with hstop
    have hrounds := trim_rounds_le C hlines start (lines.length + 1) (skip_blank_lines C lines start stop)
    have hblank : skip_blank_lines C lines start stop ≤ stop := back_while_le ..
    refine ⟨by omega, fun other hother => ?_⟩
    obtain rfl := Option.some.inj hother
    omega

end Trim

/-! ### The index -/

section Index

variable (C : CharClass)

/-- What the index of a text with these lines says of each declaration: where it is and how
it was found. -/
structure Listed (lines : List Text) (entry : Entry) : Prop where
  start : 1 ≤ entry.line
  stop : entry.line ≤ entry.end_line
  within : entry.end_line ≤ lines.length
  found : declaration_line C entry.line (lines[entry.line - 1]?.getD []) = some (entry.kind, entry.name)

/-- The lines that start a declaration, in order. -/
theorem declaration_lines_spec {number : Nat} {lines : List Text} :
    (declaration_lines C number lines).Pairwise (fun a b => a.1 < b.1) ∧
      ∀ found ∈ declaration_lines C number lines, number ≤ found.1 ∧ found.1 < number + lines.length ∧
        declaration_line C found.1 (lines[found.1 - number]?.getD []) = some found.2 := by
  induction lines generalizing number with
  | nil => exact ⟨.nil, nofun⟩
  | cons line lines ih =>
    obtain ⟨hpairs, hlist⟩ := @ih (number + 1)
    have hlater (found : Nat × Text × Text) (hfound : found ∈ declaration_lines C (number + 1) lines) :
        number ≤ found.1 ∧ found.1 < number + (line :: lines).length ∧
          declaration_line C found.1 ((line :: lines)[found.1 - number]?.getD []) = some found.2 := by
      obtain ⟨hlow, hhigh, hline⟩ := hlist found hfound
      have hindex : found.1 - number = found.1 - (number + 1) + 1 := by omega
      refine ⟨by omega, by rw [List.length_cons]; omega, ?_⟩
      rw [hindex, List.getElem?_cons_succ]
      exact hline
    rw [declaration_lines]
    split
    · rename_i found hfound
      refine ⟨List.Pairwise.cons (fun other hother => (hlist other hother).1) hpairs, fun other hother => ?_⟩
      rcases List.mem_cons.mp hother with rfl | hother
      · refine ⟨Nat.le_refl _, by rw [List.length_cons]; omega, ?_⟩
        rw [Nat.sub_self, List.getElem?_cons_zero]
        exact hfound
      · exact hlater other hother
    · exact ⟨hpairs, hlater⟩

/-- Each entry ends before the next one starts. -/
theorem index_entries_spec {lines : List Text} (hplain : ∀ line ∈ lines, ∀ c ∈ line, isLineEnd c = false)
    {heads : List (Nat × Text × Text)} (hpairs : heads.Pairwise fun a b => a.1 < b.1)
    (hheads : ∀ head ∈ heads, 1 ≤ head.1 ∧ head.1 ≤ lines.length ∧
      declaration_line C head.1 (lines[head.1 - 1]?.getD []) = some head.2) :
    (index_entries C lines heads).Pairwise (fun a b => a.end_line < b.line) ∧
      (∀ entry ∈ index_entries C lines heads, Listed C lines entry) ∧
      ∀ entry ∈ index_entries C lines heads, ∃ head ∈ heads, head.1 = entry.line := by
  induction heads with
  | nil => exact ⟨.nil, nofun, nofun⟩
  | cons head heads ih =>
    obtain ⟨line, kind, name⟩ := head
    obtain ⟨hfirst, hpairs⟩ := List.pairwise_cons.mp hpairs
    obtain ⟨⟨hstart, hwithin, hfound⟩, hheads⟩ := List.forall_mem_cons.mp hheads
    obtain ⟨hrest, hlisted, hlines⟩ := ih hpairs hheads
    dsimp only at hstart hwithin hfound
    have hnext : ∀ next ∈ heads.head?.map (·.1), line < next := by
      intro next hmem
      cases heads with
      | nil => cases hmem
      | cons second heads =>
        obtain rfl := Option.some.inj hmem
        exact hfirst second (List.mem_cons_self ..)
    obtain ⟨hstop, hbefore⟩ := trim_le C hplain hwithin hnext
    have hbelow (next : Nat × Text × Text) (hmem : next ∈ heads) :
        trim_declaration_region_end C lines line (heads.head?.map (·.1)) < next.1 := by
      cases heads with
      | nil => cases hmem
      | cons second heads =>
        have hsecond := hbefore second.1 rfl
        rcases List.mem_cons.mp hmem with rfl | hmem
        · exact hsecond
        · exact hsecond.trans ((List.pairwise_cons.mp hpairs).1 next hmem)
    rw [index_entries]
    refine ⟨List.Pairwise.cons (fun entry hentry => ?_) hrest, fun entry hentry => ?_, fun entry hentry => ?_⟩
    · obtain ⟨next, hmem, hline⟩ := hlines entry hentry
      rw [← hline]
      exact hbelow next hmem
    · rcases List.mem_cons.mp hentry with rfl | hentry
      · exact ⟨hstart, Nat.le_max_left _ _, hstop, hfound⟩
      · exact hlisted entry hentry
    · rcases List.mem_cons.mp hentry with rfl | hentry
      · exact ⟨_, List.mem_cons_self .., rfl⟩
      · obtain ⟨next, hmem, hline⟩ := hlines entry hentry
        exact ⟨next, List.mem_cons_of_mem _ hmem, hline⟩

/-- The declarations of a text are on lines that start one, and each ends before the next starts. -/
theorem index_spec (content : Text) :
    (declaration_line_index_from_text C content).Pairwise (fun a b => a.end_line < b.line) ∧
      ∀ entry ∈ declaration_line_index_from_text C content, Listed C (splitlines content) entry := by
  obtain ⟨hpairs, hlist⟩ := @declaration_lines_spec C 1 (splitlines content)
  obtain ⟨hentries, hlisted, -⟩ := index_entries_spec C line_plain hpairs fun head hhead =>
    ⟨(hlist head hhead).1, Nat.lt_one_add_iff.mp (hlist head hhead).2.1, (hlist head hhead).2.2⟩
  exact ⟨hentries, hlisted⟩

end Index

end LeanFlow.Source
