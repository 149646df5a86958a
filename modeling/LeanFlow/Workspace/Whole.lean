import LeanFlow.Workspace.Remap

/-! Which paths are replaced.

A path is to be replaced where it stands whole: a boundary follows, and it does not go on
from a longer path on its left. The search looks to the right only. -/
namespace LeanFlow.Workspace
open General

/-- The workspace is in the project, and the agent's copy in the workspace. -/
structure Nested (project workspace snapshot : Text) : Prop where
  absolute : project.head? = some '/'
  workspace_in : ∃ inner, workspace = project ++ '/' :: inner
  snapshot_in : ∃ inner, snapshot = workspace ++ '/' :: inner

/-- A path goes on from this character. -/
def continues (c : Char) : Bool := !outside c

/-- A text as it is read: its characters, and the paths that are replaced. -/
inductive Piece where
  | char (c : Char)
  | project
  | workspace
deriving DecidableEq

section reading

variable (project workspace snapshot : Text)

def Piece.text : Piece → Text
  | .char c => [c]
  | .project => project
  | .workspace => workspace

def Piece.image : Piece → Text
  | .char c => [c]
  | .project => snapshot
  | .workspace => snapshot ++ leanflow_job

/-- What the search replaces. -/
def edits : Nat → Text → List Piece
  | _, [] => []
  | skip + 1, _ :: rest => edits skip rest
  | 0, c :: rest =>
    if stands snapshot (c :: rest) then snapshot.map .char ++ edits (snapshot.length - 1) rest
    else if stands workspace (c :: rest) then .workspace :: edits (workspace.length - 1) rest
    else if stands project (c :: rest) then .project :: edits (project.length - 1) rest
    else .char c :: edits 0 rest

/-- What is to be replaced. A path is `joined` if one goes on from the character before. -/
def whole : Bool → Nat → Text → List Piece
  | _, _, [] => []
  | _, skip + 1, c :: rest => whole (continues c) skip rest
  | joined, 0, c :: rest =>
    if stands snapshot (c :: rest) then snapshot.map .char ++ whole (continues c) (snapshot.length - 1) rest
    else if stands workspace (c :: rest) ∧ joined = false then .workspace :: whole (continues c) (workspace.length - 1) rest
    else if stands project (c :: rest) ∧ joined = false then .project :: whole (continues c) (project.length - 1) rest
    else .char c :: whole (continues c) 0 rest

/-- A path may go on from the end of this text. -/
def joins (text : Text) : Bool := text.getLast?.any continues

/-- No path that is replaced goes on from a longer one. -/
def Led : Bool → List Piece → Prop
  | _, [] => True
  | _, .char c :: rest => Led (continues c) rest
  | joined, .project :: rest => joined = false ∧ Led (joins project) rest
  | joined, .workspace :: rest => joined = false ∧ Led (joins workspace) rest

instance Led.decidable : (joined : Bool) → (pieces : List Piece) → Decidable (Led project workspace joined pieces)
  | _, [] => isTrue trivial
  | _, .char c :: rest => Led.decidable (continues c) rest
  | joined, .project :: rest => @instDecidableAnd _ _ (inferInstanceAs (Decidable (joined = false))) (Led.decidable (joins project) rest)
  | joined, .workspace :: rest => @instDecidableAnd _ _ (inferInstanceAs (Decidable (joined = false))) (Led.decidable (joins workspace) rest)

/-- After no workspace does the text go on so that its image would end in the project again. -/
def Clear (pieces : List Piece) : Prop :=
  ∀ before after, pieces = before ++ .workspace :: after →
    stands project (leanflow_job ++ after.flatMap (Piece.text project workspace)) = false

end reading

/-! ### Where a path stands -/

theorem stands_iff {path text : Text} : stands path text = true ↔ ∃ rest, text = path ++ rest ∧ boundary rest = true := by
  rw [stands, Bool.and_eq_true, List.isPrefixOf_iff_prefix]
  constructor
  · rintro ⟨⟨rest, rfl⟩, hboundary⟩
    exact ⟨rest, rfl, by rwa [List.drop_left] at hboundary⟩
  · rintro ⟨rest, rfl, hboundary⟩
    exact ⟨⟨rest, rfl⟩, by rwa [List.drop_left]⟩

theorem stands_append {path rest : Text} : stands path (path ++ rest) = boundary rest := by
  rw [stands, List.isPrefixOf_iff_prefix.mpr ⟨rest, rfl⟩, List.drop_left, Bool.true_and]

/-- A path in the project is where the project is. -/
theorem stands_inner {path inner text : Text} (h : stands (path ++ '/' :: inner) text = true) : stands path text = true := by
  obtain ⟨rest, rfl, -⟩ := stands_iff.mp h
  rw [List.append_assoc, stands_append]
  rfl

/-- Where a path stands depends on no more than its length and one character. -/
theorem stands_congr {path a b : Text} (h : a.take (path.length + 1) = b.take (path.length + 1)) : stands path a = stands path b := by
  have hlength : ∀ text : Text, stands path text = stands path (text.take (path.length + 1)) := by
    intro text
    by_cases hpath : path <+: text
    · obtain ⟨rest, rfl⟩ := hpath
      rw [List.take_append, List.take_of_length_le (Nat.le_succ _), stands_append, stands_append, Nat.add_sub_cancel_left]
      cases rest <;> rfl
    · rw [stands, stands, Bool.eq_false_iff.mpr (mt List.isPrefixOf_iff_prefix.mp hpath),
        Bool.eq_false_iff.mpr (mt List.isPrefixOf_iff_prefix.mp fun h => hpath (h.trans (List.take_prefix _ _))), Bool.false_and, Bool.false_and]
  rw [hlength a, hlength b, h]

/-! ### Reading on -/

theorem sub_skip (paths : List (Text × Text)) (skip : Nat) (text : Text) : sub paths skip text = sub paths 0 (text.drop skip) := by
  induction text generalizing skip with
  | nil =>
    rw [List.drop_nil, sub, sub]
  | cons c rest ih =>
    cases skip with
    | zero => rw [List.drop_zero]
    | succ skip => rw [sub, ih, List.drop_succ_cons]

theorem edits_skip (project workspace snapshot : Text) (skip : Nat) (text : Text) :
    edits project workspace snapshot skip text = edits project workspace snapshot 0 (text.drop skip) := by
  induction text generalizing skip with
  | nil =>
    rw [List.drop_nil, edits, edits]
  | cons c rest ih =>
    cases skip with
    | zero => rw [List.drop_zero]
    | succ skip => rw [edits, ih, List.drop_succ_cons]

theorem whole_succ (project workspace snapshot : Text) (joined : Bool) (skip : Nat) (c : Char) (rest : Text) :
    whole project workspace snapshot joined (skip + 1) (c :: rest) = whole project workspace snapshot (continues c) skip rest := rfl

theorem whole_cons (project workspace snapshot : Text) (joined : Bool) (c : Char) (rest : Text) :
    whole project workspace snapshot joined 0 (c :: rest) =
      if stands snapshot (c :: rest) then snapshot.map .char ++ whole project workspace snapshot (continues c) (snapshot.length - 1) rest
      else if stands workspace (c :: rest) ∧ joined = false then
        .workspace :: whole project workspace snapshot (continues c) (workspace.length - 1) rest
      else if stands project (c :: rest) ∧ joined = false then
        .project :: whole project workspace snapshot (continues c) (project.length - 1) rest
      else .char c :: whole project workspace snapshot (continues c) 0 rest := rfl

theorem whole_skip (project workspace snapshot : Text) (joined : Bool) {path : Text} (hpath : path ≠ []) (rest : Text) :
    whole project workspace snapshot joined path.length (path ++ rest) = whole project workspace snapshot (joins path) 0 rest := by
  induction path generalizing joined with
  | nil => exact absurd rfl hpath
  | cons c path ih =>
    rw [List.length_cons, List.cons_append, whole_succ]
    cases path with
    | nil => rw [List.nil_append, List.length_nil, show joins [c] = continues c from rfl]
    | cons d path =>
      rw [ih (continues c) (List.cons_ne_nil _ _), joins, joins, List.getLast?_cons_cons]

section nested

variable {project workspace snapshot : Text} (h : Nested project workspace snapshot)
include h

theorem project_cons : ∃ tail, project = '/' :: tail := by
  obtain ⟨habsolute, -, -⟩ := h
  cases project with
  | nil => cases habsolute
  | cons c tail => exact ⟨tail, by rw [Option.some.inj habsolute]⟩

theorem workspace_stands {text : Text} (hstands : stands workspace text = true) : stands project text = true := by
  obtain ⟨inner, rfl⟩ := h.workspace_in
  exact stands_inner hstands

theorem snapshot_stands {text : Text} (hstands : stands snapshot text = true) : stands workspace text = true := by
  obtain ⟨inner, rfl⟩ := h.snapshot_in
  exact stands_inner hstands

/-- No longer path stands where the workspace does not. -/
theorem snapshot_not {text : Text} (hnot : stands workspace text = false) : stands snapshot text = false := by
  by_contra hstands
  rw [Bool.not_eq_false] at hstands
  rw [snapshot_stands h hstands] at hnot
  cases hnot

/-- A path stands where the project does. -/
theorem stands_none {text : Text} (hnone : stands project text = false) :
    stands snapshot text = false ∧ stands workspace text = false := by
  have hworkspace : stands workspace text = false := by
    by_contra hstands
    rw [Bool.not_eq_false] at hstands
    rw [workspace_stands h hstands] at hnone
    cases hnone
  exact ⟨snapshot_not h hworkspace, hworkspace⟩

theorem lengths : 1 ≤ project.length ∧ project.length < workspace.length ∧ workspace.length < snapshot.length := by
  obtain ⟨tail, hproject⟩ := project_cons h
  obtain ⟨-, ⟨inner, rfl⟩, inner', rfl⟩ := h
  simp [hproject]

/-- The three paths, longest first. -/
theorem prefixes_eq : prefixes project snapshot [(workspace, snapshot ++ leanflow_job)] =
    [(snapshot, snapshot), (workspace, snapshot ++ leanflow_job), (project, snapshot)] := by
  obtain ⟨-, hworkspace, hsnapshot⟩ := lengths h
  have hne : project ≠ workspace := fun heq => absurd hworkspace (by rw [heq]; exact Nat.lt_irrefl _)
  have hne' : workspace ≠ snapshot := fun heq => absurd hsnapshot (by rw [heq]; exact Nat.lt_irrefl _)
  have hne'' : project ≠ snapshot := fun heq => absurd (hworkspace.trans hsnapshot) (by rw [heq]; exact Nat.lt_irrefl _)
  have hitems : (Dict.ofList [(project, snapshot), (workspace, snapshot ++ leanflow_job), (snapshot, snapshot)]).items =
      [(project, snapshot), (workspace, snapshot ++ leanflow_job), (snapshot, snapshot)] := by
    simp [Dict.ofList, Dict.set, Dict.assign, Dict.empty, hne, hne', hne'']
  show (Dict.ofList [(project, snapshot), (workspace, snapshot ++ leanflow_job), (snapshot, snapshot)]).items.insertionSort _ = _
  rw [hitems]
  simp [List.insertionSort, if_neg (Nat.not_le.mpr hsnapshot), if_neg (Nat.not_le.mpr hworkspace), if_neg (Nat.not_le.mpr (hworkspace.trans hsnapshot))]

/-- A text is read path by path, and character by character between them. -/
theorem scan_induction {motive : Text → Prop} (nil : motive [])
    (snapshot_case : ∀ rest, boundary rest = true → motive rest → motive (snapshot ++ rest))
    (workspace_case : ∀ rest, boundary rest = true → stands snapshot (workspace ++ rest) = false → motive rest → motive (workspace ++ rest))
    (project_case : ∀ rest, boundary rest = true → stands workspace (project ++ rest) = false → motive rest → motive (project ++ rest))
    (char_case : ∀ c rest, stands project (c :: rest) = false → motive rest → motive (c :: rest)) (text : Text) : motive text := by
  obtain ⟨hproject, hworkspace, hsnapshot⟩ := lengths h
  induction hn : text.length using Nat.strong_induction_on generalizing text with
  | _ n ih =>
    subst hn
    -- What is left after a path is shorter than the text.
    have hafter : ∀ {path rest : Text}, text = path ++ rest → 1 ≤ path.length → motive rest := by
      rintro path rest rfl hlength
      exact ih _ (by rw [List.length_append]; omega) rest rfl
    cases hsnapshot_stands : stands snapshot text with
    | true =>
      obtain ⟨rest, rfl, hboundary⟩ := stands_iff.mp hsnapshot_stands
      exact snapshot_case rest hboundary (hafter rfl (by omega))
    | false =>
      cases hworkspace_stands : stands workspace text with
      | true =>
        obtain ⟨rest, rfl, hboundary⟩ := stands_iff.mp hworkspace_stands
        exact workspace_case rest hboundary hsnapshot_stands (hafter rfl (by omega))
      | false =>
        cases hproject_stands : stands project text with
        | true =>
          obtain ⟨rest, rfl, hboundary⟩ := stands_iff.mp hproject_stands
          exact project_case rest hboundary hworkspace_stands (hafter rfl (by omega))
        | false =>
          cases text with
          | nil => exact nil
          | cons c rest => exact char_case c rest hproject_stands (ih _ (Nat.lt_succ_self _) rest rfl)

end nested

/-! ### One step of each reading -/

theorem read_path (project workspace snapshot : Text) {path : Text} (hpath : path ≠ []) (rest : Text) :
    ∃ c tail, path ++ rest = c :: (tail ++ rest) ∧
      edits project workspace snapshot (path.length - 1) (tail ++ rest) = edits project workspace snapshot 0 rest ∧
      whole project workspace snapshot (continues c) (path.length - 1) (tail ++ rest) =
        whole project workspace snapshot (joins path) 0 rest := by
  obtain ⟨c, tail, rfl⟩ := List.exists_cons_of_ne_nil hpath
  have hwhole := whole_skip project workspace snapshot true hpath rest
  rw [List.length_cons, List.cons_append, whole_succ] at hwhole
  refine ⟨c, tail, rfl, ?_, hwhole⟩
  rw [edits_skip, List.length_cons, Nat.add_sub_cancel, List.drop_left]

theorem sub_found {paths : List (Text × Text)} {path image rest : Text} (hpath : path ≠ [])
    (hfound : found paths (path ++ rest) = some (path, image)) : sub paths 0 (path ++ rest) = image ++ sub paths 0 rest := by
  cases path with
  | nil => exact (hpath rfl).elim
  | cons c path =>
    rw [List.cons_append] at hfound ⊢
    rw [sub, hfound]
    simp only
    rw [sub_skip, List.length_cons, Nat.add_sub_cancel, List.drop_left]

theorem sub_none {paths : List (Text × Text)} {c : Char} {rest : Text} (hfound : found paths (c :: rest) = none) :
    sub paths 0 (c :: rest) = c :: sub paths 0 rest := by
  rw [sub, hfound]

section steps

variable {project workspace snapshot : Text} (h : Nested project workspace snapshot)
include h

theorem snapshot_ne : snapshot ≠ [] := by
  have hlengths := lengths h
  intro hnil
  rw [hnil, List.length_nil] at hlengths
  omega

theorem workspace_ne : workspace ≠ [] := by
  have hlengths := lengths h
  intro hnil
  rw [hnil, List.length_nil] at hlengths
  omega

theorem project_ne : project ≠ [] := by
  obtain ⟨tail, rfl⟩ := project_cons h
  exact List.cons_ne_nil _ _

theorem map_snapshot {rest : Text} (hboundary : boundary rest = true) :
    map_paths (snapshot ++ rest) project workspace snapshot = snapshot ++ map_paths rest project workspace snapshot := by
  rw [map_paths, remap_project_text, prefixes_eq h, @sub_found _ _ snapshot _ (snapshot_ne h), ← prefixes_eq h]
  · rfl
  · rw [found, List.find?_cons, stands_append, hboundary]

theorem map_workspace {rest : Text} (hboundary : boundary rest = true) (hnot : stands snapshot (workspace ++ rest) = false) :
    map_paths (workspace ++ rest) project workspace snapshot = snapshot ++ leanflow_job ++ map_paths rest project workspace snapshot := by
  rw [map_paths, remap_project_text, prefixes_eq h, @sub_found _ _ (snapshot ++ leanflow_job) _ (workspace_ne h), ← prefixes_eq h]
  · rfl
  · rw [found, List.find?_cons, hnot, List.find?_cons, stands_append, hboundary]

theorem map_project {rest : Text} (hboundary : boundary rest = true) (hnot : stands workspace (project ++ rest) = false) :
    map_paths (project ++ rest) project workspace snapshot = snapshot ++ map_paths rest project workspace snapshot := by
  have hsnapshot := snapshot_not h hnot
  rw [map_paths, remap_project_text, prefixes_eq h, @sub_found _ _ snapshot _ (project_ne h), ← prefixes_eq h]
  · rfl
  · rw [found, List.find?_cons, hsnapshot, List.find?_cons, hnot, List.find?_cons, stands_append, hboundary]

theorem map_char {c : Char} {rest : Text} (hnot : stands project (c :: rest) = false) :
    map_paths (c :: rest) project workspace snapshot = c :: map_paths rest project workspace snapshot := by
  obtain ⟨hsnapshot, hworkspace⟩ := stands_none h hnot
  rw [map_paths, remap_project_text, prefixes_eq h, sub_none, ← prefixes_eq h]
  · rfl
  · rw [found, List.find?_cons, hsnapshot, List.find?_cons, hworkspace, List.find?_cons, hnot, List.find?_nil]

theorem edits_snapshot {rest : Text} (hboundary : boundary rest = true) :
    edits project workspace snapshot 0 (snapshot ++ rest) = snapshot.map .char ++ edits project workspace snapshot 0 rest := by
  obtain ⟨c, tail, hcons, hedits, -⟩ := read_path project workspace snapshot (snapshot_ne h) rest
  have hstands : stands snapshot (c :: (tail ++ rest)) = true := by rw [← hcons, stands_append, hboundary]
  rw [hcons, edits, if_pos hstands, hedits]

theorem edits_workspace {rest : Text} (hboundary : boundary rest = true) (hnot : stands snapshot (workspace ++ rest) = false) :
    edits project workspace snapshot 0 (workspace ++ rest) = .workspace :: edits project workspace snapshot 0 rest := by
  obtain ⟨c, tail, hcons, hedits, -⟩ := read_path project workspace snapshot (workspace_ne h) rest
  have hstands : stands workspace (c :: (tail ++ rest)) = true := by rw [← hcons, stands_append, hboundary]
  rw [hcons] at hnot ⊢
  rw [edits, if_neg (by rw [hnot]; exact Bool.false_ne_true), if_pos hstands, hedits]

theorem edits_project {rest : Text} (hboundary : boundary rest = true) (hnot : stands workspace (project ++ rest) = false) :
    edits project workspace snapshot 0 (project ++ rest) = .project :: edits project workspace snapshot 0 rest := by
  have hsnapshot := snapshot_not h hnot
  obtain ⟨c, tail, hcons, hedits, -⟩ := read_path project workspace snapshot (project_ne h) rest
  have hstands : stands project (c :: (tail ++ rest)) = true := by rw [← hcons, stands_append, hboundary]
  rw [hcons] at hnot hsnapshot ⊢
  rw [edits, if_neg (by rw [hsnapshot]; exact Bool.false_ne_true), if_neg (by rw [hnot]; exact Bool.false_ne_true), if_pos hstands, hedits]

theorem edits_char {c : Char} {rest : Text} (hnot : stands project (c :: rest) = false) :
    edits project workspace snapshot 0 (c :: rest) = .char c :: edits project workspace snapshot 0 rest := by
  obtain ⟨hsnapshot, hworkspace⟩ := stands_none h hnot
  rw [edits, if_neg (by rw [hsnapshot]; exact Bool.false_ne_true), if_neg (by rw [hworkspace]; exact Bool.false_ne_true),
    if_neg (by rw [hnot]; exact Bool.false_ne_true)]

theorem whole_snapshot (joined : Bool) {rest : Text} (hboundary : boundary rest = true) :
    whole project workspace snapshot joined 0 (snapshot ++ rest) =
      snapshot.map .char ++ whole project workspace snapshot (joins snapshot) 0 rest := by
  obtain ⟨c, tail, hcons, -, hwhole⟩ := read_path project workspace snapshot (snapshot_ne h) rest
  have hstands : stands snapshot (c :: (tail ++ rest)) = true := by rw [← hcons, stands_append, hboundary]
  rw [hcons, whole_cons, if_pos hstands, hwhole]

theorem whole_workspace {rest : Text} (hboundary : boundary rest = true) (hnot : stands snapshot (workspace ++ rest) = false) :
    whole project workspace snapshot false 0 (workspace ++ rest) =
      .workspace :: whole project workspace snapshot (joins workspace) 0 rest := by
  obtain ⟨c, tail, hcons, -, hwhole⟩ := read_path project workspace snapshot (workspace_ne h) rest
  have hstands : stands workspace (c :: (tail ++ rest)) = true := by rw [← hcons, stands_append, hboundary]
  rw [hcons] at hnot ⊢
  rw [whole_cons, if_neg (by rw [hnot]; exact Bool.false_ne_true), if_pos ⟨hstands, rfl⟩, hwhole]

theorem whole_project {rest : Text} (hboundary : boundary rest = true) (hnot : stands workspace (project ++ rest) = false) :
    whole project workspace snapshot false 0 (project ++ rest) = .project :: whole project workspace snapshot (joins project) 0 rest := by
  have hsnapshot := snapshot_not h hnot
  obtain ⟨c, tail, hcons, -, hwhole⟩ := read_path project workspace snapshot (project_ne h) rest
  have hstands : stands project (c :: (tail ++ rest)) = true := by rw [← hcons, stands_append, hboundary]
  rw [hcons] at hnot hsnapshot ⊢
  rw [whole_cons, if_neg (by rw [hsnapshot]; exact Bool.false_ne_true),
    if_neg fun hboth => absurd hboth.1 (by rw [hnot]; exact Bool.false_ne_true), if_pos ⟨hstands, rfl⟩, hwhole]

theorem whole_char (joined : Bool) {c : Char} {rest : Text} (hnot : stands project (c :: rest) = false) :
    whole project workspace snapshot joined 0 (c :: rest) = .char c :: whole project workspace snapshot (continues c) 0 rest := by
  obtain ⟨hsnapshot, hworkspace⟩ := stands_none h hnot
  rw [whole_cons, if_neg (by rw [hsnapshot]; exact Bool.false_ne_true),
    if_neg fun hboth => absurd hboth.1 (by rw [hworkspace]; exact Bool.false_ne_true),
    if_neg fun hboth => absurd hboth.1 (by rw [hnot]; exact Bool.false_ne_true)]

omit h in
/-- Where a path goes on from a longer one, only its first character is read. -/
theorem whole_joined {text : Text} (hnot : stands snapshot text = false) (hne : text ≠ []) :
    ∃ c rest, whole project workspace snapshot true 0 text = .char c :: rest := by
  cases text with
  | nil => exact (hne rfl).elim
  | cons c rest =>
    refine ⟨c, whole project workspace snapshot (continues c) 0 rest, ?_⟩
    rw [whole_cons, if_neg (by rw [hnot]; exact Bool.false_ne_true), if_neg fun hboth => absurd hboth.2 (by decide),
      if_neg fun hboth => absurd hboth.2 (by decide)]

end steps

end LeanFlow.Workspace
