import LeanFlow.Transactions.Kept

/-! Replacements are counted once.

`declaration_source` raises for a candidate with another number of replacements than
its node has holes; nothing else in an acceptance or a resume raises that error. -/
namespace LeanFlow.Transactions
open General Goals Source

/-- What a wrong number of replacements raises. -/
def miscounted (node : Node) : ValueError := ⟨s!"expected {node.holes.length} sorry replacements for {node.name}"⟩

/-- An error of another kind. -/
def Counted (e : ValueError) : Prop := ∀ node, e ≠ miscounted node

/-- An exception of another kind. -/
def Calculated (e : Raised) : Prop := ∀ node, e ≠ .value_error (miscounted node)

/-- The message of a miscount begins with an `e`. -/
theorem counted_of_head {e : ValueError} {c : Char} (h : e.message.toList.head? = some c) (hc : c ≠ 'e') : Counted e := by
  rintro node rfl
  have hhead : (miscounted node).message.toList.head? = some 'e' := by
    simp only [miscounted, String.toList_append, List.head?_append]
    rfl
  rw [hhead] at h
  exact hc (Option.some.inj h).symm

theorem Counted.calculated {e : ValueError} (h : Counted e) : Calculated (.value_error e) :=
  fun node hnode => h node (Raised.value_error.inj hnode)

/-! ### Rendering -/

section Errors

variable {C : CharClass} {e : ValueError}

theorem unterminated_counted {m : Mode} (h : m.unterminated = some e) : Counted e := by
  induction m with
  | code | line => cases h
  | block depth | string | quoted =>
    obtain rfl := Option.some.inj h
    exact counted_of_head (c := 'u') rfl (by decide)
  | second m ih => exact ih h

/-- The mask complains about comments and strings only. -/
theorem mask_counted {source : Text} (h : lean_code_mask source = .error e) : Counted e := by
  unfold lean_code_mask at h
  split at h
  · rename_i he
    obtain rfl := Except.error.inj h
    exact unterminated_counted he
  · cases h

/-- The search for holes asks for no number of them. -/
theorem spans_counted {source : Text} (h : sorry_spans C source = .error e) : Counted e := by
  unfold sorry_spans at h
  cases hmask : lean_code_mask source with
  | ok mask =>
    rw [hmask] at h
    cases h
  | error e' =>
    rw [hmask] at h
    obtain rfl := Except.error.inj h
    exact mask_counted hmask

/-- A replacement is refused for what it contains. -/
theorem replacement_counted {replacement : Text} (h : validate_hole_replacement C replacement = .error e) :
    Counted e := by
  rcases bind_eq_error h with hmask | ⟨mask, -, h⟩
  · exact mask_counted hmask
  · split at h
    · obtain rfl := Except.error.inj h
      refine counted_of_head (c := 'a') ?_ (by decide)
      simp only [String.toList_append, List.head?_append]
      rfl
    · split at h
      · cases h
      · obtain rfl := Except.error.inj h
        exact counted_of_head (c := 'a') rfl (by decide)

/-- Rendering never counts. -/
theorem render_counted {document : SourceDocument} {overrides : List (Nat × Text)}
    (h : document.render C overrides = .error e) : Counted e := by
  rcases bind_eq_error h with hreplacements | ⟨_, -, h⟩
  · obtain ⟨item, -, hitem⟩ := forM_eq_error hreplacements
    exact replacement_counted hitem
  rcases bind_eq_error h with hspans | ⟨spans, -, h⟩
  · unfold holeSpans at hspans
    split at hspans
    · cases hspans
    · exact spans_counted hspans
  · split at h
    · obtain rfl := Except.error.inj h
      exact counted_of_head (c := 's') rfl (by decide)
    · cases h

/-- A candidate with a replacement for each hole is not miscounted. -/
theorem declaration_source_counted {document : SourceDocument} {node : Node} {candidate : List Text}
    (hcount : candidate.length = node.holes.length)
    (h : declaration_source C document node (some candidate) = .error e) : Counted e := by
  unfold declaration_source at h
  rw [if_neg (by simp [hcount])] at h
  exact render_counted h

end Errors

/-! ### Programs that do not miscount -/

/-- Whatever is raised, it is not that error. -/
abbrev Counts {α : Type} (x : Controller α) : Prop := x.Raises Calculated

section Programs

variable {C : CharClass} {sha256 : Text → String} {shown : Node → NodeStatus}

theorem counts_failing (fails : Bool) {e : Raised} (he : Calculated e) : Counts (failing fails e) :=
  .ite (fun _ => he) fun _ => trivial

theorem calculated_os_error : Calculated .os_error := nofun

theorem calculated_source_conflict (path : String) : Calculated (.source_conflict path) := nofun

theorem calculated_infrastructure (status message : String) : Calculated (.infrastructure status message) := nofun

theorem counts_os (fails : Bool) : Counts (failing fails .os_error) := counts_failing fails calculated_os_error

theorem counts_active (fails : Step → Bool) (step : Step) : Counts (ensure_active fails step) :=
  counts_failing _ (calculated_infrastructure _ _)

/-- A check that does not count raises no miscount. -/
theorem counts_checked {α : Type} {result : Except ValueError α} (h : ∀ e, result = .error e → Counted e) :
    Counts (checked result) := by
  refine .ofExcept fun e he => ?_
  cases result with
  | ok a => cases he
  | error e' =>
    obtain rfl := Except.error.inj he
    exact (h e' rfl).calculated

theorem counts_render {document : SourceDocument} {overrides : List (Nat × Text)} :
    Counts (checked (document.render C overrides)) := counts_checked fun _ => render_counted

/-- A source that was changed is a conflict. -/
theorem counts_assert_sources : Counts (assert_sources C) := by
  refine .bind .get fun w => .ofExcept fun e he => ?_
  obtain ⟨item, -, hitem⟩ := forM_eq_error he
  split at hitem
  · rename_i e' hrender
    obtain rfl := Except.error.inj hitem
    exact (render_counted hrender).calculated
  · split at hitem
    · cases hitem
    · obtain rfl := Except.error.inj hitem
      exact calculated_source_conflict _

theorem counts_find_document (file : String) : Counts (find_document file) := by
  refine .bind .get fun w => ?_
  cases w.documents.get? file with
  | none => exact nofun
  | some document => trivial

theorem counts_find_node (id : String) : Counts (find_node id) := by
  refine .bind .get fun w => ?_
  cases w.dag.by_id id with
  | none => exact nofun
  | some node => trivial

/-- A record without a path is a missing key. -/
theorem find_change_calculated {path : String} {changes : List Change} {e : Raised}
    (h : find_change path changes = .error e) : Calculated e := by
  induction changes with
  | nil => cases h
  | cons change changes ih =>
    rw [find_change] at h
    split at h
    · obtain rfl := Except.error.inj h
      exact nofun
    · split at h
      · cases h
      · cases hrest : find_change path changes with
        | ok i =>
          rw [hrest] at h
          cases h
        | error e' =>
          rw [hrest] at h
          obtain rfl := Except.error.inj h
          exact ih hrest

/-- A dependency that is not in the graph is a missing key. -/
theorem conditional_calculated {dag : Dag} {dependencies : List String} {e : Raised}
    (h : conditional dag dependencies = .error e) : Calculated e := by
  induction dependencies with
  | nil => cases h
  | cons dep dependencies ih =>
    rw [conditional] at h
    split at h
    · obtain rfl := Except.error.inj h
      exact nofun
    · cases hrest : conditional dag dependencies with
      | ok waiting =>
        rw [hrest] at h
        cases h
      | error e' =>
        rw [hrest] at h
        obtain rfl := Except.error.inj h
        exact ih hrest

variable {fails : Step → Bool}

theorem counts_find_change {path : String} {changes : List Change} :
    Counts (.ofExcept (find_change path changes)) := .ofExcept fun _ => find_change_calculated

theorem counts_record_change (fails : Bool) (document : SourceDocument) (agent_id : String) :
    Counts (record_change fails document agent_id) :=
  .bind (counts_os _) fun _ => .bind .get fun _ => .bind counts_find_change fun _ => .modify _

theorem counts_stage_change (path : String) : Counts (stage_change path) := by
  refine .bind .get fun w => .bind counts_find_change fun prior => ?_
  cases prior with
  | none => exact nofun
  | some i => exact .modify _

theorem counts_restore_change (path : String) (before : Option Change) : Counts (restore_change path before) := by
  refine .bind .get fun w => .bind counts_find_change fun prior => ?_
  cases prior with
  | none => trivial
  | some i =>
    cases before with
    | none => exact .modify _
    | some before => exact .bind (.modify _) fun _ => .bind (.modify _) fun _ => .modify _

/-- The lock is released whatever is raised, and raises nothing itself. -/
theorem counts_with_lock {x : Controller Unit} (hx : Counts x) : Counts (with_lock x) :=
  .bind (.modify _) fun _ => .bind (.handle hx fun _ he => .bind (.modify _) fun _ => he) fun _ => .modify _

theorem counts_publish (fails : Bool) : Counts (publish fails shown) :=
  counts_with_lock (.bind (counts_os _) fun _ => .modify _)

theorem counts_progress_call {begin_fails end_fails : Bool} {x : Controller Unit} (hx : Counts x) :
    Counts (progress_call shown begin_fails end_fails x) :=
  .bind (counts_publish _) fun _ =>
    .bind (.handle hx fun _ he => .bind (counts_publish _) fun _ => he) fun _ => counts_publish _

/-- Writing the store fails as the operating system does. -/
theorem counts_persist (fails : StorePart → Bool) : Counts (persist fails shown) := by
  have hstore : Counts (store_documents fails) :=
    .bind .get fun w => .ite (fun _ => .bind (counts_os _) fun _ => .bind (.modify _) fun _ =>
      .bind (counts_os _) fun _ => .modify _) fun _ => trivial
  have hwrite : Counts (store_write fails) :=
    .bind hstore fun _ => .bind (.modify _) fun _ => .bind (counts_os _) fun _ => counts_os _
  exact counts_with_lock (.bind hwrite fun _ => .bind (counts_os _) fun _ => .modify _)

/-! ### Recovery -/

/-- A rollback renders the source before, which still has its holes. -/
theorem counts_undo_proof {fails : RecoverStep → Bool} (journal : ProofJournal) :
    Counts (undo_proof C fails shown journal) := by
  have hretain : Counts (retain_candidate journal) :=
    .bind (counts_find_node _) fun _ => .bind .get fun _ => .bind (.ofExcept fun _ => conditional_calculated) fun _ =>
      .modify _
  exact .bind counts_render fun _ => .bind (counts_os _) fun _ => .bind (.modify _) fun _ => .bind (.modify _) fun _ =>
    .bind (counts_os _) fun _ => .bind (.modify _) fun _ => .bind hretain fun _ =>
      .bind (counts_restore_change _ _) fun _ => counts_persist _

theorem counts_recover_install {fails : RecoverStep → Bool} (journal : ProofJournal) :
    Counts (recover_install C sha256 fails shown journal) := by
  have hcheck (current : String) : Counts (check_committed C sha256 journal current) := by
    refine .bind .get fun w => ?_
    cases w.documents.get? journal.before_document.path with
    | none => exact nofun
    | some document => exact .bind counts_render fun _ => .ite (fun _ => nofun) fun _ => trivial
  refine .bind .get fun w => ?_
  cases w.disk.files.get? journal.before_document.path with
  | none => exact nofun
  | some content =>
    refine .ite (fun _ => nofun) fun _ => .bind (.ite (fun _ => hcheck _) fun _ => counts_undo_proof journal) fun _ => ?_
    exact .bind (counts_os _) fun _ => .modify _

theorem file_counted {file : String} {e : ValueError} (h : safe_relative_file file = .error e) : Counted e := by
  simp only [safe_relative_file] at h
  split_ifs at h
  · obtain rfl := Except.error.inj h
    refine counted_of_head (c := 'i') ?_ (by decide)
    simp only [String.toList_append, List.head?_append]
    rfl
  · obtain rfl := Except.error.inj h
    refine counted_of_head (c := 'r') ?_ (by decide)
    simp only [String.toList_append, List.head?_append]
    rfl

/-- A journal is refused for the paths in it. -/
theorem artifacts_calculated {journal : MaterializationJournal} {e : Raised} (h : journal.artifacts = .error e) :
    Calculated e := by
  obtain ⟨file, -, hfile⟩ := mapM_eq_error h
  split_ifs at hfile
  · split at hfile
    · rename_i e' he
      obtain rfl := Except.error.inj hfile
      exact (file_counted he).calculated
    · cases hfile
  · obtain rfl := Except.error.inj hfile
    exact (counted_of_head (c := 'I') rfl (by decide)).calculated

theorem counts_recover_materialization {fails : RecoverStep → Bool} (journal : MaterializationJournal) :
    Counts (recover_materialization fails shown journal) := by
  have hvalidate (committed : Bool) (w : World) (e : Raised) (h : journal.validate committed w = .error e) :
      Calculated e := by
    obtain ⟨item, -, hitem⟩ := forM_eq_error h
    split at hitem
    · cases hitem
    · obtain rfl := Except.error.inj hitem
      exact calculated_source_conflict _
  have hfile (observed : World) (item : String × WriteEntry) : Counts (restore_file fails observed item) :=
    .bind .get fun _ => .ite (fun _ => calculated_source_conflict _) fun _ => .bind (counts_os _) fun _ => .bind (.modify _) fun _ =>
      .ite (fun _ => .bind (counts_os _) fun _ => .modify _) fun _ => trivial
  have hundo (artifacts : List (String × Option Text)) (observed : World) :
      Counts (undo_materialization fails shown journal artifacts observed) :=
    .bind (.forM fun item _ => hfile observed item) fun _ =>
      .bind (.forM fun artifact _ => .bind (counts_os _) fun _ => .modify _) fun _ =>
        .bind (.modify _) fun _ => counts_persist _
  refine .bind .get fun w => .bind (.ofExcept fun _ => artifacts_calculated) fun artifacts => .bind .get fun w' => ?_
  refine .bind (.ofExcept (hvalidate _ w')) fun _ => .bind (.ite (fun _ => trivial) fun _ => hundo _ _) fun _ => ?_
  exact .bind (counts_os _) fun _ => .modify _

/-- Recovery does not count, of a proof or of a plan. -/
theorem counts_recover_proof {fails : RecoverStep → Bool} : Counts (recover_proof C sha256 fails shown) := by
  refine .bind .get fun w => ?_
  cases w.disk.journal with
  | none => trivial
  | some journal =>
    cases journal with
    | proof journal => exact counts_recover_install journal
    | materialization journal => exact counts_recover_materialization journal

/-! ### Acceptance -/

variable {sub : Submission}

/-- What is integrated has been put into its declaration before. -/
theorem counts_integrate (before after : SourceDocument) : Counts (integrate C fails shown sub before after) := by
  have hleave (step : Step) (artifact : Option Text) : Counts (leave_artifact fails sub step artifact) := by
    refine .bind (counts_os _) fun _ => ?_
    cases artifact with
    | none => trivial
    | some artifact => exact .modify _
  have hcompile : Counts (compile_source fails shown sub) :=
    .bind (counts_progress_call (hleave _ _)) fun _ => .ite (fun _ => .bind (counts_active _ _) fun _ =>
      calculated_infrastructure _ _) fun _ => trivial
  have hartifact : Counts (integrate_artifact fails shown sub) := by
    unfold integrate_artifact
    cases sub.installed with
    | none => exact hcompile
    | some artifact =>
      exact .bind (counts_progress_call (hleave _ _)) fun _ =>
        .ite (fun _ => .bind (counts_os _) fun _ => hcompile) fun _ => trivial
  have hunchanged : Counts (check_unchanged C sub before) := by
    refine .bind .get fun w => ?_
    cases w.disk.files.get? sub.node.file with
    | none => exact nofun
    | some content => exact .bind counts_render fun _ => .ite (fun _ => calculated_infrastructure _ _) fun _ => trivial
  exact .bind (counts_active _ _) fun _ => .bind hunchanged fun _ => .bind counts_render fun _ =>
    .bind (counts_os _) fun _ => .bind (.modify _) fun _ => .bind (counts_record_change _ _ _) fun _ =>
      .bind (counts_stage_change _) fun _ => .bind hartifact fun _ => counts_assert_sources

/-- A pause raises another kind of error than the one it was given. -/
theorem counts_pause (before : SourceDocument) (error : Raised) :
    Counts (pause C sha256 fails shown sub before error) := by
  have hfailed (e : Raised) (he : Calculated e) : Counts (rollback_failed e) := by
    cases e with
    | value_error | source_conflict => exact calculated_infrastructure _ _
    | infrastructure | runtime_error | key_error | os_error => exact he
  have hpaused : Calculated (paused error) := by
    cases error <;> exact calculated_infrastructure _ _
  exact .bind (.modify _) fun _ => .bind (.handle counts_recover_proof hfailed) fun _ => .bind (.modify _) fun _ =>
    .bind (counts_persist _) fun _ => hpaused

theorem counts_commit_proof (after : SourceDocument) : Counts (commit_proof C sha256 fails shown sub after) := by
  have hlocations (w : World) (e : Raised) (h : w.locations C = .error e) : Calculated e := by
    obtain ⟨node, -, hnode⟩ := forM_eq_error h
    split at hnode
    · obtain rfl := Except.error.inj hnode
      exact nofun
    · split at hnode
      · rename_i e' hmask
        obtain rfl := Except.error.inj hnode
        rcases bind_eq_error hmask with hrender | ⟨text, -, hmask⟩
        · exact (render_counted hrender).calculated
        · exact (mask_counted hmask).calculated
      · cases hnode
  exact .bind counts_render fun _ => .bind (.modify _) fun _ => .bind (counts_record_change _ _ _) fun _ =>
    .bind .get fun w => .bind (.ofExcept (hlocations w)) fun _ => .bind (.modify _) fun _ =>
      .bind (counts_persist _) fun _ => .bind (counts_os _) fun _ => .bind (.modify _) fun _ => counts_os _

theorem counts_install_proof : Counts (install_proof C sha256 fails shown sub) := by
  have hbegin (before : SourceDocument) (after : Text) :
      Counts (begin_proof C sha256 (fails .journal) sub.transaction_id sub.node sub.candidate before after) :=
    .bind .get fun _ => .bind counts_find_change fun _ => .bind counts_render fun _ => .bind (counts_os _) fun _ =>
      .bind (.modify _) fun _ => trivial
  exact .bind (counts_active _ _) fun _ => .bind counts_assert_sources fun _ => .bind (counts_find_document _) fun _ =>
    .bind (.modify _) fun _ => .bind counts_render fun _ => .bind (hbegin _ _) fun _ =>
      .bind (.handle (counts_integrate _ _) fun e _ => counts_pause _ e) fun _ => counts_commit_proof _

/-- An acceptance of as many replacements as the node has holes does not miscount. -/
theorem counts_accept_locked (hcount : sub.candidate.length = sub.node.holes.length) :
    Counts (accept_locked C sha256 fails shown sub) := by
  have hcheck (document : SourceDocument) {x : Controller Bool} (hx : Counts x) : Counts (do
      let _ ← checked (declaration_source C (staged_document sub document) sub.node (some sub.candidate))
      progress_call shown (fails .check_begin) (fails .check_end) (failing (fails .check) .os_error)
      failing (fails .check_event) .os_error
      x) :=
    .bind (counts_checked fun _ => declaration_source_counted hcount) fun _ =>
      .bind (counts_progress_call (counts_os _)) fun _ => .bind (counts_os _) fun _ => hx
  refine .bind (counts_active _ _) fun _ => .bind counts_assert_sources fun _ =>
    .bind (counts_find_document _) fun document => ?_
  cases sub.verdict with
  | imports_rejected notes => exact .bind (.modify _) fun _ => trivial
  | rejected notes => exact hcheck _ (.bind (.modify _) fun _ => trivial)
  | inputs_changed => exact hcheck _ (.bind (.modify _) fun _ => trivial)
  | unavailable message =>
    exact hcheck _ (.bind (.modify _) fun _ => .bind (counts_persist _) fun _ => .bind (counts_active _ _) fun _ =>
      calculated_infrastructure _ _)
  | accepted => exact hcheck _ (.bind counts_install_proof fun _ => trivial)

/-! ### Promotion -/

variable {env : Environment}

theorem counts_refuse (research : Bool) (id : String) : Counts (refuse research env id) := by
  refine .ite (fun _ => .bind (.modify _) fun _ => .bind ?_ fun _ => trivial) fun _ => .bind (.modify _) fun _ => trivial
  exact .ite (fun _ => trivial) fun _ => .bind (.modify _) fun _ => counts_persist _

/-- Promotion does not miscount a whole candidate. -/
theorem counts_take_candidate (research : Bool) {node : Node} (hcount : node.candidate.length = node.holes.length) :
    Counts (take_candidate C sha256 research env node) := by
  have hlocked : Counts (accept_locked C sha256 env.fails env.shown
      (env.submission node node.candidate "controller")) := counts_accept_locked hcount
  have haccept : Counts (accept C sha256 env node node.candidate "controller") :=
    .bind (.modify _) fun _ => .bind (.handle hlocked fun _ he => .bind (.modify _) fun _ => he) fun _ =>
      .bind (.modify _) fun _ => trivial
  exact .bind (.modify _) fun _ => .bind (.handle haccept fun _ he => .bind (.modify _) fun _ => he) fun accepted =>
    .ite (fun _ => trivial) fun _ => counts_refuse research _

theorem open_dependency_calculated {dag : Dag} {dependencies : List String} {e : Raised}
    (h : has_open_dependency dag dependencies = .error e) : Calculated e := by
  induction dependencies with
  | nil => cases h
  | cons dep dependencies ih =>
    rw [has_open_dependency] at h
    split at h
    · obtain rfl := Except.error.inj h
      exact nofun
    · split at h
      · exact ih h
      · cases h

/-! ### Resuming -/

/-- The search for a cycle stops at the cycle, or where it is too deep. -/
theorem visit_counted {dependencies : String → List String} {depth : Nat} {visiting visited : List String} {id : String}
    {e : ValueError} (h : visit dependencies depth visiting visited id = .error e) : Counted e := by
  induction depth generalizing visiting visited id with
  | zero =>
    simp only [visit] at h
    split_ifs at h
    all_goals
      obtain rfl := Except.error.inj h
      exact counted_of_head (c := 'D') rfl (by decide)
  | succ depth ih =>
    simp only [visit] at h
    split_ifs at h
    · obtain rfl := Except.error.inj h
      exact counted_of_head (c := 'D') rfl (by decide)
    · rcases bind_eq_error h with hfold | ⟨_, -, h⟩
      · obtain ⟨dep, -, visited', hdep⟩ := foldlM_eq_error hfold
        exact ih hdep
      · cases h

theorem node_counted {ids : List String} {names : List (String × String)} {node : Shape} {e : ValueError}
    (h : validate_node ids names node = .error e) : Counted e := by
  rcases bind_eq_error h with hfile | ⟨_, -, h⟩
  · exact file_counted hfile
  split_ifs at h
  · obtain rfl := Except.error.inj h
    exact counted_of_head (c := 'D') rfl (by decide)
  · obtain rfl := Except.error.inj h
    exact counted_of_head (c := 'd') rfl (by decide)
  · obtain rfl := Except.error.inj h
    refine counted_of_head (c := 'm') ?_ (by decide)
    simp only [String.toList_append, List.head?_append]
    rfl
  · obtain rfl := Except.error.inj h
    exact counted_of_head (c := 'd') rfl (by decide)

/-- A graph is refused for its nodes, its roots and its edges. -/
theorem validate_counted {dag : Dag} {max_nodes : Nat} {e : ValueError} (h : dag.validate max_nodes = .error e) :
    Counted e := by
  simp only [Dag.validate, validate_shapes] at h
  split_ifs at h
  · obtain rfl := Except.error.inj h
    exact counted_of_head (c := 'D') rfl (by decide)
  · obtain rfl := Except.error.inj h
    exact counted_of_head (c := 'D') rfl (by decide)
  · rcases bind_eq_error h with hnodes | ⟨_, -, h⟩
    · obtain ⟨node, -, names, hnode⟩ := foldlM_eq_error hnodes
      exact node_counted hnode
    · rcases bind_eq_error h with hvisit | ⟨_, -, h⟩
      · obtain ⟨id, -, visited, hid⟩ := foldlM_eq_error hvisit
        exact visit_counted hid
      · cases h

/-- A restart restores and persists, and has nothing to count. -/
theorem counts_restart {max_nodes : Nat} {resumable : String → Bool} {restarts : Node → Bool} :
    Counts (restart C sha256 max_nodes resumable restarts env) := by
  have hload (disk : Disk) (saved : Saved) (e : Raised) (h : load_documents disk saved = .error e) : Calculated e := by
    unfold load_documents at h
    split at h
    · cases h
    · split at h
      · cases h
      · obtain rfl := Except.error.inj h
        exact nofun
  have hrestore : Counts (restore C sha256 max_nodes env.shown) :=
    .bind .get fun w => .bind (.modify _) fun _ => .bind (counts_checked fun _ => validate_counted) fun _ =>
      .bind (counts_checked fun _ => validate_counted) fun _ => .bind (.ofExcept (hload _ _)) fun _ =>
        .bind (.modify _) fun _ => .bind counts_recover_proof fun _ => counts_assert_sources
  exact .bind hrestore fun _ => .bind (.modify _) fun _ => counts_persist _

end Programs

end LeanFlow.Transactions
