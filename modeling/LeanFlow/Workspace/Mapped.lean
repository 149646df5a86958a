import LeanFlow.Workspace.Whole

/-! The text an agent is given.

Every path that stands whole is replaced. The search replaces no others in a text where
none of those it finds goes on from a longer path; mapping such a text again changes
nothing, unless the image of the workspace ends in the project's own path. -/
namespace LeanFlow.Workspace
open General

theorem led_char (project workspace : Text) (joined : Bool) (c : Char) (pieces : List Piece) :
    Led project workspace joined (.char c :: pieces) = Led project workspace (continues c) pieces := rfl

theorem led_project (project workspace : Text) (joined : Bool) (pieces : List Piece) :
    Led project workspace joined (.project :: pieces) = (joined = false ∧ Led project workspace (joins project) pieces) := rfl

theorem led_workspace (project workspace : Text) (joined : Bool) (pieces : List Piece) :
    Led project workspace joined (.workspace :: pieces) = (joined = false ∧ Led project workspace (joins workspace) pieces) := rfl

theorem led_chars (project workspace : Text) (joined : Bool) {path : Text} (hpath : path ≠ []) (pieces : List Piece) :
    Led project workspace joined (path.map .char ++ pieces) ↔ Led project workspace (joins path) pieces := by
  induction path generalizing joined with
  | nil => exact (hpath rfl).elim
  | cons c path ih =>
    rw [List.map_cons, List.cons_append, led_char]
    cases path with
    | nil => rw [List.map_nil, List.nil_append, show joins [c] = continues c from rfl]
    | cons d path => rw [ih (continues c) (List.cons_ne_nil _ _), joins, joins, List.getLast?_cons_cons]

theorem flatMap_chars (f : Piece → Text) (hf : ∀ c, f (.char c) = [c]) (text : Text) : (text.map Piece.char).flatMap f = text := by
  induction text with
  | nil => rfl
  | cons c text ih => rw [List.map_cons, List.flatMap_cons, hf, ih, List.singleton_append]

section nested

variable {project workspace snapshot : Text} (h : Nested project workspace snapshot)
include h

/-! ### Pieces -/

/-- The pieces are those of the text. -/
theorem edits_text (text : Text) : (edits project workspace snapshot 0 text).flatMap (Piece.text project workspace) = text := by
  induction text using scan_induction h with
  | nil => rfl
  | snapshot_case rest hboundary ih => rw [edits_snapshot h hboundary, List.flatMap_append, ih, flatMap_chars _ fun _ => rfl]
  | workspace_case rest hboundary hnot ih =>
    rw [edits_workspace h hboundary hnot, List.flatMap_cons, ih]
    rfl
  | project_case rest hboundary hnot ih =>
    rw [edits_project h hboundary hnot, List.flatMap_cons, ih]
    rfl
  | char_case c rest hnot ih =>
    rw [edits_char h hnot, List.flatMap_cons, ih]
    rfl

/-- Only the paths are replaced. -/
theorem map_edits (text : Text) :
    map_paths text project workspace snapshot = (edits project workspace snapshot 0 text).flatMap (Piece.image snapshot) := by
  induction text using scan_induction h with
  | nil => rfl
  | snapshot_case rest hboundary ih =>
    rw [map_snapshot h hboundary, edits_snapshot h hboundary, List.flatMap_append, ih, flatMap_chars _ fun _ => rfl]
  | workspace_case rest hboundary hnot ih =>
    rw [map_workspace h hboundary hnot, edits_workspace h hboundary hnot, List.flatMap_cons, ih]
    rfl
  | project_case rest hboundary hnot ih =>
    rw [map_project h hboundary hnot, edits_project h hboundary hnot, List.flatMap_cons, ih]
    rfl
  | char_case c rest hnot ih =>
    rw [map_char h hnot, edits_char h hnot, List.flatMap_cons, ih]
    rfl

/-- The search replaces what is to be replaced, if nothing it finds goes on from a longer path. -/
theorem whole_iff_led (text : Text) (joined : Bool) :
    edits project workspace snapshot 0 text = whole project workspace snapshot joined 0 text ↔
      Led project workspace joined (edits project workspace snapshot 0 text) := by
  induction text using scan_induction h generalizing joined with
  | nil => exact ⟨fun _ => trivial, fun _ => rfl⟩
  | snapshot_case rest hboundary ih =>
    rw [edits_snapshot h hboundary, whole_snapshot h joined hboundary, led_chars _ _ _ (snapshot_ne h), List.append_cancel_left_eq, ih]
  | workspace_case rest hboundary hnot ih =>
    rw [edits_workspace h hboundary hnot]
    cases joined with
    | false => rw [whole_workspace h hboundary hnot, List.cons_inj_right, ih, led_workspace, and_iff_right rfl]
    | true =>
      obtain ⟨c, rest', heq⟩ := @whole_joined project workspace snapshot _ hnot (List.append_ne_nil_of_left_ne_nil (workspace_ne h) rest)
      rw [heq]
      exact ⟨fun hsame => absurd (List.cons_eq_cons.mp hsame).1 (by simp), fun hled => absurd hled.1 (by decide)⟩
  | project_case rest hboundary hnot ih =>
    rw [edits_project h hboundary hnot]
    cases joined with
    | false => rw [whole_project h hboundary hnot, List.cons_inj_right, ih, led_project, and_iff_right rfl]
    | true =>
      obtain ⟨c, rest', heq⟩ := @whole_joined project workspace snapshot _ (snapshot_not h hnot) (List.append_ne_nil_of_left_ne_nil (project_ne h) rest)
      rw [heq]
      exact ⟨fun hsame => absurd (List.cons_eq_cons.mp hsame).1 (by simp), fun hled => absurd hled.1 (by decide)⟩
  | char_case c rest hnot ih => rw [edits_char h hnot, whole_char h joined hnot, List.cons_inj_right, ih, led_char]

/-! ### Mapping again -/

theorem project_prefix : project <+: workspace ∧ project <+: snapshot := by
  obtain ⟨-, ⟨inner, rfl⟩, inner', rfl⟩ := h
  exact ⟨List.prefix_append _ _, by rw [List.append_assoc]; exact List.prefix_append _ _⟩

/-- What is mapped begins like the text: every image begins with the project. -/
theorem take_map (text : Text) {n : Nat} (hn : n ≤ project.length) :
    (map_paths text project workspace snapshot).take n = text.take n := by
  obtain ⟨⟨inner, hworkspace⟩, inner', hsnapshot⟩ := project_prefix h
  have htake : ∀ a b : Text, (project ++ a).take n = (project ++ b).take n := fun a b => by
    rw [List.take_append_of_le_length hn, List.take_append_of_le_length hn]
  induction text using scan_induction h generalizing n with
  | nil => rfl
  | snapshot_case rest hboundary ih =>
    rw [map_snapshot h hboundary]
    conv_lhs => rw [← hsnapshot, List.append_assoc]
    conv_rhs => rw [← hsnapshot, List.append_assoc]
    exact htake _ _
  | workspace_case rest hboundary hnot ih =>
    rw [map_workspace h hboundary hnot]
    conv_lhs => rw [← hsnapshot, List.append_assoc, List.append_assoc]
    conv_rhs => rw [← hworkspace, List.append_assoc]
    exact htake _ _
  | project_case rest hboundary hnot ih =>
    rw [map_project h hboundary hnot]
    conv_lhs => rw [← hsnapshot, List.append_assoc]
    exact htake _ _
  | char_case c rest hnot ih =>
    rw [map_char h hnot]
    cases n with
    | zero => rfl
    | succ n => rw [List.take_succ_cons, List.take_succ_cons, ih (by omega) fun a b => by
        rw [List.take_append_of_le_length (by omega), List.take_append_of_le_length (by omega)]]

theorem boundary_map {rest : Text} (hboundary : boundary rest = true) : boundary (map_paths rest project workspace snapshot) = true := by
  have hhead := take_map h rest (lengths h).1
  cases rest with
  | nil => rfl
  | cons c rest =>
    cases hmap : map_paths (c :: rest) project workspace snapshot with
    | nil => rfl
    | cons d rest' =>
      rw [hmap] at hhead
      obtain rfl : d = c := (List.cons_eq_cons.mp hhead).1
      exact hboundary

/-- Behind something else the project stands in the mapped text where it stands in the text. -/
theorem stands_map {before : Text} (hbefore : before ≠ []) (text : Text) :
    stands project (before ++ map_paths text project workspace snapshot) = stands project (before ++ text) := by
  refine stands_congr ?_
  rw [List.take_append, List.take_append, take_map h text]
  have hpos := List.length_pos_iff.mpr hbefore
  omega

/-- Where the project does not begin, characters are kept. -/
theorem map_tail {tail : Text} (htail : ∀ c ∈ tail, c ≠ '/') (text : Text) :
    map_paths (tail ++ text) project workspace snapshot = tail ++ map_paths text project workspace snapshot := by
  obtain ⟨inner, hproject⟩ := project_cons h
  induction tail with
  | nil => rfl
  | cons c tail ih =>
    rw [List.cons_append, map_char h, ih fun d hd => htail d (List.mem_cons_of_mem c hd), List.cons_append]
    rw [stands, hproject, List.isPrefixOf, Bool.and_eq_false_iff]
    exact .inl (by simp [(htail c List.mem_cons_self).symm])

omit h in
theorem job_slashless : ∀ c ∈ job_name, c ≠ '/' := by simp [job_name]

/-- Mapping again changes nothing in a text that is clear. -/
theorem map_again (text : Text) (hclear : Clear project workspace (edits project workspace snapshot 0 text)) :
    map_paths (map_paths text project workspace snapshot) project workspace snapshot = map_paths text project workspace snapshot := by
  induction text using scan_induction h with
  | nil => rfl
  | snapshot_case rest hboundary ih =>
    rw [edits_snapshot h hboundary] at hclear
    rw [map_snapshot h hboundary, map_snapshot h (boundary_map h hboundary), ih fun before after heq =>
      hclear (snapshot.map .char ++ before) after (by rw [heq, List.append_assoc])]
  | workspace_case rest hboundary hnot ih =>
    rw [edits_workspace h hboundary hnot] at hclear
    have hjob : stands project (leanflow_job ++ map_paths rest project workspace snapshot) = false := by
      rw [stands_map h (by decide)]
      have hafter := hclear [] _ rfl
      rwa [edits_text h] at hafter
    rw [map_workspace h hboundary hnot, List.append_assoc, map_snapshot h rfl]
    rw [leanflow_job, List.cons_append] at hjob ⊢
    rw [map_char h hjob, map_tail h job_slashless, ih fun before after heq => hclear (.workspace :: before) after (by rw [heq, List.cons_append])]
  | project_case rest hboundary hnot ih =>
    rw [edits_project h hboundary hnot] at hclear
    rw [map_project h hboundary hnot, map_snapshot h (boundary_map h hboundary), ih fun before after heq =>
      hclear (.project :: before) after (by rw [heq, List.cons_append])]
  | char_case c rest hnot ih =>
    rw [edits_char h hnot] at hclear
    have hstands : stands project (c :: map_paths rest project workspace snapshot) = false := by
      rw [← List.singleton_append, stands_map h (List.cons_ne_nil _ _)]
      exact hnot
    rw [map_char h hnot, map_char h hstands, ih fun before after heq => hclear (.char c :: before) after (by rw [heq, List.cons_append])]

/-- Only a project below a root that is named like the job's directory can stand in its image again. -/
theorem clear_of_root (hroot : ¬ leanflow_job <+: project) (text : Text) :
    Clear project workspace (edits project workspace snapshot 0 text) := by
  intro before after heq
  by_contra hstands
  rw [Bool.not_eq_false] at hstands
  obtain ⟨rest, hsplit, hboundary⟩ := stands_iff.mp hstands
  have hprefix : project <+: leanflow_job ++ after.flatMap (Piece.text project workspace) := ⟨rest, hsplit.symm⟩
  obtain hlong | hshort := le_total leanflow_job.length project.length
  · exact hroot (List.prefix_of_prefix_length_le (List.prefix_append _ _) hprefix hlong)
  · -- A shorter project ends inside the directory's name, where there is no boundary.
    obtain ⟨more, hmore⟩ := List.prefix_of_prefix_length_le hprefix (List.prefix_append _ _) hshort
    obtain ⟨tail, rfl⟩ := project_cons h
    cases more with
    | nil => exact hroot ⟨[], by rw [List.append_nil, ← hmore, List.append_nil]⟩
    | cons c more =>
      have hc : c ∈ job_name := by
        rw [← (List.cons_eq_cons.mp hmore).2]
        exact List.mem_append_right _ List.mem_cons_self
      have hinside : job_name.all (fun c => !(separator c || outside c)) = true := by decide +kernel
      rw [← hmore, List.append_assoc, List.append_cancel_left_eq] at hsplit
      rw [← hsplit, List.cons_append, boundary, Bool.eq_false_of_not_eq_true' (List.all_eq_true.mp hinside c hc)] at hboundary
      cases hboundary

end nested

/-! ### When the mapping is exact -/

/-- Exactly the whole paths are replaced, and mapping again changes nothing. -/
def Exact (project workspace snapshot text : Text) : Prop :=
  edits project workspace snapshot 0 text = whole project workspace snapshot false 0 text ∧
    map_paths (map_paths text project workspace snapshot) project workspace snapshot = map_paths text project workspace snapshot

/-- What is mapped is the text with its edits; they are exact only where none goes on from a
longer path, and there they are exact if the text is clear. -/
theorem remap_exact {project workspace snapshot : Text} (h : Nested project workspace snapshot) (text : Text) :
    (edits project workspace snapshot 0 text).flatMap (Piece.text project workspace) = text ∧
      map_paths text project workspace snapshot = (edits project workspace snapshot 0 text).flatMap (Piece.image snapshot) ∧
      (Exact project workspace snapshot text → Led project workspace false (edits project workspace snapshot 0 text)) ∧
      (Led project workspace false (edits project workspace snapshot 0 text) →
        Clear project workspace (edits project workspace snapshot 0 text) → Exact project workspace snapshot text) ∧
      (¬ leanflow_job <+: project → Clear project workspace (edits project workspace snapshot 0 text)) :=
  ⟨edits_text h text, map_edits h text, fun hexact => (whole_iff_led h text false).mp hexact.1,
    fun hled hclear => ⟨(whole_iff_led h text false).mpr hled, map_again h text hclear⟩, fun hroot => clear_of_root h hroot text⟩

theorem nested_project : Nested "/p".toList "/p/w".toList "/p/w/project".toList := ⟨rfl, ⟨"w".toList, rfl⟩, "project".toList, rfl⟩

theorem remap_exact_project :
    Exact "/p".toList "/p/w".toList "/p/w/project".toList "see /p/A.lean, /mnt/p2 and /p/w/B.lean".toList := by
  obtain ⟨-, -, -, hexact, hclear⟩ := remap_exact nested_project "see /p/A.lean, /mnt/p2 and /p/w/B.lean".toList
  exact hexact (by decide +kernel) (hclear (by decide +kernel))

/-- A longer path that has the project's in its middle is cut. -/
theorem longer_path_cut :
    ¬ ∀ project workspace snapshot text : Text, Nested project workspace snapshot → Exact project workspace snapshot text := by
  intro h
  have hled := (whole_iff_led nested_project "/mnt/p/A.lean".toList false).mp (h _ _ _ "/mnt/p/A.lean".toList nested_project).1
  exact absurd hled (by decide +kernel)

end LeanFlow.Workspace
