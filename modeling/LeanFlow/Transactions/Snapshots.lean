import LeanFlow.Transactions.Helpers
import Mathlib.Data.List.ReduceOption

/-! The artifacts a planning transaction can put back.

A compilation is recorded with the artifact it may replace. The record is what the
transaction found as long as each artifact is compiled once: a second record of the same
artifact finds what the first compilation left, and restoring it keeps a rejected module. -/
namespace LeanFlow.Transactions
open General Goals Source

/-! ### What publications leave alone -/

/-- The files, the journal and the documents are the same. -/
structure Elsewhere (w w' : World) : Prop where
  files : w'.disk.files = w.disk.files
  journal : w'.disk.journal = w.disk.journal
  documents : w'.documents = w.documents

theorem Elsewhere.refl (w : World) : Elsewhere w w := ⟨rfl, rfl, rfl⟩

theorem Elsewhere.trans (w w' w'' : World) (h : Elsewhere w w') (h' : Elsewhere w' w'') : Elsewhere w w'' :=
  ⟨h'.files.trans h.files, h'.journal.trans h.journal, h'.documents.trans h.documents⟩

theorem elsewhere_step (step : PublishStep) (w w' : World) (h : step.apply w = some w') : Elsewhere w w' := by
  unfold PublishStep.apply at h
  split at h
  · split at h
    · cases h
    · obtain rfl := Option.some.inj h
      exact ⟨rfl, rfl, rfl⟩
  · split at h
    · obtain rfl := Option.some.inj h
      exact ⟨rfl, rfl, rfl⟩
    · cases h
  · split at h
    · obtain ⟨_, -, rfl⟩ := Option.map_eq_some_iff.mp h
      exact ⟨rfl, rfl, rfl⟩
    · cases h
  · split at h
    · obtain rfl := Option.some.inj h
      exact ⟨rfl, rfl, rfl⟩
    · cases h
  · obtain rfl := Option.some.inj h
    exact ⟨rfl, rfl, rfl⟩
  · cases h

theorem elsewhere_acquire (w : World) : Elsewhere w w.acquire := by
  unfold World.acquire
  split <;> exact ⟨rfl, rfl, rfl⟩

section Keeps
variable {P Q I : World → Prop}

theorem modify_elsewhere (hP : Prog.Stable Elsewhere P) {f : World → World} (hf : ∀ w, Elsewhere w (f w)) :
    Prog.Keeps Elsewhere P (Prog.modify f : Controller Unit) :=
  .modify hP fun w hw => hP w (f w) hw (hf w)

theorem failing_elsewhere (hP : Prog.Stable Elsewhere P) (fails : Bool) (e : Raised) :
    Prog.Keeps Elsewhere P (failing fails e) := .ite (.raise hP e) (.ret hP _)

theorem with_lock_elsewhere (hP : Prog.Stable Elsewhere P) {x : Controller Unit} (hx : Prog.Keeps Elsewhere P x) :
    Prog.Keeps Elsewhere P (with_lock x) := by
  have hrelease : Prog.Keeps Elsewhere P (Prog.modify World.release : Controller Unit) :=
    modify_elsewhere hP fun _ => ⟨rfl, rfl, rfl⟩
  refine .bind Elsewhere.refl (modify_elsewhere hP elsewhere_acquire) fun _ => ?_
  refine .bind Elsewhere.refl (Prog.Keeps.handle Elsewhere.refl hx fun e => ?_) fun _ => hrelease
  exact .bind Elsewhere.refl hrelease fun _ => .raise hP e

theorem publish_elsewhere (hP : Prog.Stable Elsewhere P) (fails : Bool) (shown : Node → NodeStatus) :
    Prog.Keeps Elsewhere P (publish fails shown) :=
  with_lock_elsewhere hP (.bind Elsewhere.refl (failing_elsewhere hP _ _) fun _ =>
    modify_elsewhere hP fun _ => ⟨rfl, rfl, rfl⟩)

/-- What keeps an assertion leaves the states it may be left in by an exception. -/
theorem stays (hP : Prog.Kept Elsewhere I P) {α : Type} {x : Controller α} (hx : Prog.Keeps Elsewhere P x) :
    Prog.Outline Elsewhere I P x (fun _ => P) fun _ => I :=
  (hx.outline hP.inside).mono (fun _ h => h) (fun _ _ h => h) fun _ => hP.inside

/-- A call that is published when it begins and when it ends. -/
theorem progress_call_elsewhere (hP : Prog.Kept Elsewhere I P) (hQ : Prog.Kept Elsewhere I Q)
    (hI : Prog.Stable Elsewhere I) {shown : Node → NodeStatus} {begin_fails end_fails : Bool} {x : Controller Unit}
    (hx : Prog.Outline Elsewhere I P x (fun _ => Q) fun _ => I) :
    Prog.Outline Elsewhere I P (progress_call shown begin_fails end_fails x) (fun _ => Q) fun _ => I := by
  have hend := stays hQ (publish_elsewhere hQ.stable end_fails shown)
  have hfailed := (publish_elsewhere hI end_fails shown).outline (I := I) fun _ h => h
  refine .bind (Q := fun _ => P) Elsewhere.refl (stays hP (publish_elsewhere hP.stable begin_fails shown)) fun _ => ?_
  refine .bind (Q := fun _ => Q) Elsewhere.refl (.handle Elsewhere.refl hx fun e => ?_) fun _ => hend
  exact .bind (Q := fun _ => I) Elsewhere.refl hfailed fun _ => .raise ⟨hI, fun _ h => h⟩ fun _ h => h

end Keeps

/-! ### Snapshots -/

/-- What a path held before the transaction first wrote it. -/
def MaterializationJournal.untouched (journal : MaterializationJournal) (w : World) (path : String) : Option Text :=
  match journal.writes.get? path with
  | some entry => entry.before
  | none => w.disk.files.get? path

/-- Every compiled module is recorded with the artifact it had before the transaction. -/
def MaterializationJournal.Faithful (start : World) (opened journal : MaterializationJournal) : Prop :=
  ∀ file ∈ journal.compiled_modules,
    journal.compiled_artifacts.get? file = some (opened.untouched start (artifact_path file))

/-- The artifact of a node. -/
def node_artifact (dag : Dag) (id : String) : String := ((dag.by_id id).map fun node => artifact_path node.file).getD ""

/-- The journal on disk is faithful wherever a run has got to. -/
def KeepsArtifacts (C : CharClass) (dag : Dag) (documents : Documents) (start : World) (opened : MaterializationJournal) : Prop :=
  ∀ size fails shown checks outer moves rest now journal,
    Prog.drive PublishStep.apply moves (compile_changed_helpers C size fails shown checks dag outer documents opened, start) =
      some (rest, now) →
    now.disk.journal = some (.materialization journal) → opened.Faithful start journal

section Snapshots

variable {dag : Dag} {start : World} {opened : MaterializationJournal}

/-- An artifact within the limit of the recovery journal. -/
def World.recordable (w : World) (path : String) : Bool := !(w.disk.files.get? path).any (fileLimit < ·.length)

/-- The helpers whose artifacts can be recorded: the loop stops at the first that is too large. -/
def recordable_helpers (dag : Dag) (start : World) (ids : List String) : List String :=
  ids.takeWhile fun id => start.recordable (node_artifact dag id)

/-- After the helpers of `done` were compiled. -/
structure Compiled (dag : Dag) (start : World) (opened : MaterializationJournal) (done : List String)
    (journal : MaterializationJournal) (w : World) : Prop where
  logged : w.disk.journal = some (.materialization journal)
  faithful : opened.Faithful start journal
  files : ∀ path ∉ done.map (node_artifact dag), w.disk.files.get? path = start.disk.files.get? path

/-- A crash finds a faithful journal. -/
def FaithfulDisk (start : World) (opened : MaterializationJournal) (w : World) : Prop :=
  ∀ journal, w.disk.journal = some (.materialization journal) → opened.Faithful start journal

theorem stable_faithful : Prog.Stable Elsewhere (FaithfulDisk start opened) := by
  intro w w' h hw journal hjournal
  exact h journal (hw.journal ▸ hjournal)

theorem Compiled.kept (dag : Dag) (start : World) (opened : MaterializationJournal) (done : List String) (journal : MaterializationJournal) :
    Prog.Kept Elsewhere (FaithfulDisk start opened) (Compiled dag start opened done journal) where
  stable w w' h hw := ⟨hw.journal.trans h.logged, h.faithful, fun path hpath => by rw [hw.files]; exact h.files path hpath⟩
  inside w h journal' hjournal := by
    obtain rfl : journal = journal' := by simpa using h.logged.symm.trans hjournal
    exact h.faithful

theorem faithful_record {journal : MaterializationJournal} (h : opened.Faithful start journal) {file : String}
    {before : Option Text} (hbefore : before = opened.untouched start (artifact_path file)) :
    opened.Faithful start { journal with
      compiled_modules := journal.compiled_modules ++ [file]
      compiled_artifacts := journal.compiled_artifacts.set file before } := by
  intro other hother
  show (journal.compiled_artifacts.set file before).get? other = _
  by_cases heq : other = file
  · rw [heq, Dict.get?_set_self, hbefore]
  · rw [Dict.get?_set_ne _ _ heq]
    rcases List.mem_append.mp hother with hother | hother
    · exact h other hother
    · exact absurd (List.mem_singleton.mp hother) heq

variable {size : MaterializationJournal → Nat}

/-- An artifact that was not compiled yet is recorded as it was, if it can be. -/
theorem record_compilation_outline {done : List String} {journal : MaterializationJournal} {file : String} (fails : Bool)
    (hnew : artifact_path file ∉ done.map (node_artifact dag))
    (huntouched : start.recordable (artifact_path file) = true →
      start.disk.files.get? (artifact_path file) = opened.untouched start (artifact_path file)) :
    Prog.Outline Elsewhere (FaithfulDisk start opened) (Compiled dag start opened done journal)
      (record_compilation size fails journal file)
      (fun journal' w => Compiled dag start opened done journal' w ∧ start.recordable (artifact_path file) = true)
      fun _ => FaithfulDisk start opened := by
  have hkept := Compiled.kept dag start opened done journal
  have hraise (e : Raised) : Prog.Outline Elsewhere (FaithfulDisk start opened) (Compiled dag start opened done journal)
      (.raise e : Controller MaterializationJournal) (fun journal' w => Compiled dag start opened done journal' w ∧
        start.recordable (artifact_path file) = true) fun _ => FaithfulDisk start opened :=
    .raise hkept fun w hw => hkept.inside w hw
  have hhold (journal' : MaterializationJournal) : Prog.Outline Elsewhere (FaithfulDisk start opened)
      (Compiled dag start opened done journal) (Prog.modify (World.hold journal') : Controller Unit)
      (fun _ => Compiled dag start opened done journal) fun _ => FaithfulDisk start opened :=
    .modify hkept hkept fun w hw => ⟨hw.logged, hw.faithful, hw.files⟩
  refine .bind (Q := fun w s => Compiled dag start opened done journal s ∧
    w.disk.files.get? (artifact_path file) = start.disk.files.get? (artifact_path file)) Elsewhere.refl
    (.get hkept fun w w' hw hsame => ⟨hkept.stable w w' hw hsame, hw.files _ hnew⟩) fun w => ?_
  refine fun s hs => ?_
  obtain ⟨hs, hbefore⟩ := hs
  rw [hbefore]
  by_cases hlarge : (start.disk.files.get? (artifact_path file)).any (fileLimit < ·.length) = true
  · rw [if_pos hlarge]
    exact hraise _ s hs
  · rw [if_neg hlarge]
    have hfits : start.recordable (artifact_path file) = true := by simpa [World.recordable] using hlarge
    have hrecorded := faithful_record hs.faithful (huntouched hfits)
    dsimp only
    refine Prog.Outline.bind Elsewhere.refl (hhold _) (fun _ => ?_) s hs
    by_cases hsize : journalLimit < size { journal with
        compiled_modules := journal.compiled_modules ++ [file]
        compiled_artifacts := journal.compiled_artifacts.set file (start.disk.files.get? (artifact_path file)) }
    · rw [if_pos hsize]
      exact hraise _
    · rw [if_neg hsize]
      refine .bind (Q := fun _ => Compiled dag start opened done journal) Elsewhere.refl
        (stays hkept (failing_elsewhere hkept.stable fails _)) fun _ => ?_
      refine .bind (Q := fun _ => Compiled dag start opened done _) Elsewhere.refl
        (.modify hkept (Compiled.kept dag start opened done _) fun w hw => ⟨rfl, hrecorded, hw.files⟩) fun _ => ?_
      exact .ret (Compiled.kept dag start opened done _) fun _ hw => ⟨hw, hfits⟩

theorem node_artifact_eq {id : String} {node : Node} (h : dag.by_id id = some node) :
    node_artifact dag id = artifact_path node.file := by
  rw [node_artifact, h]
  rfl

variable {fails : CompileStep → Bool} {shown : Node → NodeStatus} {checks : String → Checked} {outer : Bool}

/-- Only the artifact of the helper changes. -/
theorem compile_module_outline {done : List String} {journal : MaterializationJournal} {id : String} {node : Node}
    (hnode : dag.by_id id = some node) :
    Prog.Outline Elsewhere (FaithfulDisk start opened) (Compiled dag start opened done journal)
      (compile_module fails checks id node.file) (fun _ => Compiled dag start opened (done ++ [id]) journal)
      fun _ => FaithfulDisk start opened := by
  have hkept := Compiled.kept dag start opened done journal
  have hmore (w : World) (hw : Compiled dag start opened done journal w) : Compiled dag start opened (done ++ [id]) journal w :=
    ⟨hw.logged, hw.faithful, fun path hpath => hw.files path fun hmem => hpath (by
      rw [List.map_append]
      exact List.mem_append_left _ hmem)⟩
  refine .bind (Q := fun _ => Compiled dag start opened done journal) Elsewhere.refl
    (stays hkept (.ofExcept hkept.stable _)) fun _ => ?_
  refine .bind (Q := fun _ => Compiled dag start opened done journal) Elsewhere.refl
    (stays hkept (failing_elsewhere hkept.stable _ _)) fun _ => ?_
  cases checks id with
  | infrastructure result => exact .ret hkept hmore
  | rejected result => exact .ret hkept hmore
  | accepted artifact =>
    refine .modify hkept (Compiled.kept dag start opened (done ++ [id]) journal) fun w hw => ⟨hw.logged, hw.faithful, fun path hpath => ?_⟩
    have hne : path ≠ artifact_path node.file := by
      rintro rfl
      exact hpath (List.mem_map.mpr ⟨id, List.mem_append_right _ (List.mem_singleton_self _), node_artifact_eq hnode⟩)
    exact (Dict.get?_set_ne _ _ hne).trans ((hmore w hw).files path hpath)

/-- **One turn** keeps the journal faithful, when the artifact is new to the loop. -/
theorem compile_helper_outline {done : List String} {journal : MaterializationJournal} {id : String}
    (hnew : node_artifact dag id ∉ done.map (node_artifact dag))
    (huntouched : start.recordable (node_artifact dag id) = true →
      start.disk.files.get? (node_artifact dag id) = opened.untouched start (node_artifact dag id)) :
    Prog.Outline Elsewhere (FaithfulDisk start opened) (Compiled dag start opened done journal)
      (compile_helper size fails shown checks dag outer journal id)
      (fun journal' w => Compiled dag start opened (done ++ [id]) journal' w ∧
        start.recordable (node_artifact dag id) = true)
      fun _ => FaithfulDisk start opened := by
  have hkept := Compiled.kept dag start opened done journal
  unfold compile_helper
  cases hnode : dag.by_id id with
  | none => exact .raise hkept fun w hw => hkept.inside w hw
  | some node =>
    rw [node_artifact_eq hnode] at hnew huntouched ⊢
    refine .bind (Q := fun _ => Compiled dag start opened done journal) Elsewhere.refl
      (stays hkept (failing_elsewhere hkept.stable _ _)) fun _ => ?_
    refine .bind Elsewhere.refl (record_compilation_outline _ hnew huntouched) fun journal' => ?_
    intro w hw
    have hkept' := Compiled.kept dag start opened (done ++ [id]) journal'
    refine Prog.Outline.bind (Q := fun _ => Compiled dag start opened (done ++ [id]) journal') Elsewhere.refl
      (progress_call_elsewhere (Compiled.kept dag start opened done journal') hkept' stable_faithful (compile_module_outline hnode))
      (fun _ => ?_) w hw.1
    have hrequire : Prog.Keeps Elsewhere (Compiled dag start opened (done ++ [id]) journal') (require_accepted fails checks id) := by
      unfold require_accepted
      cases checks id with
      | accepted artifact => exact .ret hkept'.stable _
      | rejected result => exact .raise hkept'.stable _
      | infrastructure result =>
        exact .bind Elsewhere.refl (failing_elsewhere hkept'.stable _ _) fun _ => .raise hkept'.stable _
    refine .bind (Q := fun _ => Compiled dag start opened (done ++ [id]) journal') Elsewhere.refl (stays hkept' hrequire) fun _ => ?_
    refine .bind (Q := fun _ => Compiled dag start opened (done ++ [id]) journal') Elsewhere.refl
      (stays hkept' (.ite (publish_elsewhere hkept'.stable _ _) (.ret hkept'.stable _))) fun _ => ?_
    exact .ret hkept' fun _ h => ⟨h, hw.2⟩

/-- What the loop asks of the helpers it still has to compile. -/
structure Apart (dag : Dag) (start : World) (opened : MaterializationJournal) (done ids : List String) : Prop where
  recordable : ∀ id ∈ done, start.recordable (node_artifact dag id) = true
  distinct : ((done ++ recordable_helpers dag start ids).map (node_artifact dag)).Nodup
  untouched : ∀ id ∈ recordable_helpers dag start ids,
    start.disk.files.get? (node_artifact dag id) = opened.untouched start (node_artifact dag id)

theorem Apart.new {done ids : List String} {id : String} (h : Apart dag start opened done (id :: ids)) :
    node_artifact dag id ∉ done.map (node_artifact dag) := by
  intro hmem
  obtain ⟨earlier, hearlier, hsame⟩ := List.mem_map.mp hmem
  have hfits : start.recordable (node_artifact dag id) = true := hsame ▸ h.recordable earlier hearlier
  have hdistinct := h.distinct
  rw [recordable_helpers, List.takeWhile_cons_of_pos (by exact hfits), List.map_append, List.map_cons] at hdistinct
  exact (List.nodup_append.mp hdistinct).2.2 _ hmem _ (List.mem_cons_self ..) rfl

theorem Apart.next {done ids : List String} {id : String} (h : Apart dag start opened done (id :: ids))
    (hfits : start.recordable (node_artifact dag id) = true) : Apart dag start opened (done ++ [id]) ids := by
  obtain ⟨hrecordable, hdistinct, huntouched⟩ := h
  rw [recordable_helpers, List.takeWhile_cons_of_pos (by exact hfits)] at hdistinct huntouched
  refine ⟨fun other hother => ?_, ?_, fun other hother => huntouched other (List.mem_cons_of_mem _ hother)⟩
  · rcases List.mem_append.mp hother with hother | hother
    · exact hrecordable other hother
    · exact List.mem_singleton.mp hother ▸ hfits
  · rw [List.append_assoc]
    exact hdistinct

/-- **The loop** keeps the journal faithful. -/
theorem compile_helpers_outline {done ids : List String} {journal : MaterializationJournal}
    (h : Apart dag start opened done ids) :
    Prog.Outline Elsewhere (FaithfulDisk start opened) (Compiled dag start opened done journal)
      (ids.foldlM (compile_helper size fails shown checks dag outer) journal) (fun _ => FaithfulDisk start opened)
      fun _ => FaithfulDisk start opened := by
  induction ids generalizing done journal with
  | nil => exact .ret (Compiled.kept dag start opened done journal) fun w hw => (Compiled.kept dag start opened done journal).inside w hw
  | cons id ids ih =>
    rw [List.foldlM_cons]
    have huntouched (hfits : start.recordable (node_artifact dag id) = true) :
        start.disk.files.get? (node_artifact dag id) = opened.untouched start (node_artifact dag id) := by
      refine h.untouched id ?_
      rw [recordable_helpers, List.takeWhile_cons_of_pos (by exact hfits)]
      exact List.mem_cons_self ..
    refine .bind Elsewhere.refl (compile_helper_outline h.new huntouched) fun journal' w hw => ?_
    exact ih (h.next hw.2) w hw.1

/-! ### The run that finds another artifact -/

theorem calm_publish (shown : Node → NodeStatus) (w : World) :
    Prog.calm (publish false shown) w = (.ok (), ((w.acquire).publish shown).release) := by
  simp [publish, with_lock, failing]

theorem elsewhere_published (shown : Node → NodeStatus) (w : World) : Elsewhere w ((w.acquire).publish shown).release :=
  (elsewhere_acquire w).trans _ _ _ ⟨rfl, rfl, rfl⟩

/-- A turn in which nothing fails. -/
theorem calm_compile_helper (shown : Node → NodeStatus) {w : World} (journal : MaterializationJournal) {id path : String} {node : Node}
    {artifact : Text} (hnode : dag.by_id id = some node) (hsafe : safe_relative_file node.file = .ok path) (hchecks : checks id = .accepted artifact)
    (hfits : w.recordable (artifact_path node.file) = true) : ∃ w', Prog.calm (compile_helper (fun _ => 0) (fun _ => false) shown checks dag false journal id) w =
      (.ok { journal with
        compiled_modules := journal.compiled_modules ++ [node.file]
        compiled_artifacts := journal.compiled_artifacts.set node.file (w.disk.files.get? (artifact_path node.file)) }, w') ∧
      w'.disk.journal = some (.materialization { journal with
        compiled_modules := journal.compiled_modules ++ [node.file]
        compiled_artifacts := journal.compiled_artifacts.set node.file (w.disk.files.get? (artifact_path node.file)) }) ∧
      w'.disk.files = w.disk.files.set (artifact_path node.file) artifact := by
  have hsmall : ¬(w.disk.files.get? (artifact_path node.file)).any (fileLimit < ·.length) = true := by
    simpa [World.recordable] using hfits
  set journal' : MaterializationJournal := { journal with
    compiled_modules := journal.compiled_modules ++ [node.file]
    compiled_artifacts := journal.compiled_artifacts.set node.file (w.disk.files.get? (artifact_path node.file)) }
  set w₁ := (w.hold journal').setJournal (some (.materialization journal'))
  have hrecord : Prog.calm (record_compilation (fun _ => 0) false journal node.file) w = (.ok journal', w₁) := by
    unfold record_compilation
    rw [Prog.calm_bind, Prog.calm_get]
    dsimp only
    rw [if_neg hsmall]
    rfl
  set w₂ := ((w₁.acquire).publish shown).release
  have hbegin : Elsewhere w₁ w₂ := elsewhere_published shown w₁
  set w₃ := w₂.writeFile (artifact_path node.file) artifact
  have hmodule : Prog.calm (compile_module (fun _ => false) checks id node.file) w₂ = (.ok (), w₃) := by
    rw [compile_module, hsafe, hchecks]
    rfl
  set w₄ := ((w₃.acquire).publish shown).release
  have hend : Elsewhere w₃ w₄ := elsewhere_published shown w₃
  have hcall : Prog.calm (progress_call shown false false (compile_module (fun _ => false) checks id node.file)) w₁ = (.ok (), w₄) := by
    rw [progress_call, Prog.calm_bind, calm_publish]
    dsimp only
    rw [Prog.calm_bind, Prog.calm_handle, hmodule]
    exact calm_publish shown w₃
  refine ⟨w₄, ?_, ?_, ?_⟩
  · rw [compile_helper, hnode]
    dsimp only
    rw [Prog.calm_bind, show Prog.calm (failing false (.infrastructure "interrupted" "")) w = (.ok (), w) from rfl]
    dsimp only
    rw [Prog.calm_bind, hrecord]
    dsimp only
    rw [Prog.calm_bind, hcall]
    dsimp only
    rw [require_accepted, hchecks]
    rfl
  · exact hend.journal.trans hbegin.journal
  · rw [hend.files, show w₃.disk.files = w₂.disk.files.set (artifact_path node.file) artifact from rfl, hbegin.files]
    rfl

/-- A text that is not the one given. -/
def other_text (content : Option Text) : Text := if content = some [] then [' '] else []

theorem other_text_ne (content : Option Text) : some (other_text content) ≠ content := by
  unfold other_text
  split
  · rename_i h
    rw [h]
    decide
  · exact fun h => ‹¬content = some []› h.symm

theorem other_text_short (content : Option Text) : (other_text content).length ≤ fileLimit := by
  unfold other_text
  split <;> decide

/-- A compiler that leaves another artifact than the transaction found. -/
def other_checks (dag : Dag) (start : World) (opened : MaterializationJournal) (id : String) : Checked :=
  .accepted (other_text (opened.untouched start (node_artifact dag id)))

/-- A node the loop can look up and compile. -/
def Compilable (dag : Dag) (id : String) : Prop :=
  ∃ node, dag.by_id id = some node ∧ ∃ path, safe_relative_file node.file = .ok path

/-- The files after some helpers were compiled by it. -/
def compiled_file (dag : Dag) (start : World) (opened : MaterializationJournal) (done : List String) (path : String) : Option Text :=
  if path ∈ done.map (node_artifact dag) then some (other_text (opened.untouched start path))
  else start.disk.files.get? path

theorem recordable_of_compiled {done : List String} {id : String} {w : World}
    (hfits : start.recordable (node_artifact dag id) = true)
    (hfiles : w.disk.files.get? (node_artifact dag id) = compiled_file dag start opened done (node_artifact dag id)) :
    w.recordable (node_artifact dag id) = true := by
  unfold World.recordable at hfits ⊢
  rw [hfiles, compiled_file]
  split
  · have hshort := other_text_short (opened.untouched start (node_artifact dag id))
    simpa using hshort
  · exact hfits

theorem calm_helpers (hopen : start.disk.journal = some (.materialization opened)) (shown : Node → NodeStatus) {done : List String}
    (hdone : ∀ id ∈ done, Compilable dag id ∧ start.recordable (node_artifact dag id) = true) :
    ∃ journal w, Prog.calm (done.foldlM (compile_helper (fun _ => 0) (fun _ => false) shown (other_checks dag start opened) dag false) opened)
        start = (.ok journal, w) ∧
      w.disk.journal = some (.materialization journal) ∧
      (∀ path, w.disk.files.get? path = compiled_file dag start opened done path) ∧
      ∀ earlier id, done = earlier ++ [id] → ∃ file ∈ journal.compiled_modules, artifact_path file = node_artifact dag id ∧
        journal.compiled_artifacts.get? file = some (compiled_file dag start opened earlier (node_artifact dag id)) := by
  induction done using List.reverseRecOn with
  | nil => exact ⟨opened, start, rfl, hopen, fun path => by simp [compiled_file], fun earlier id h => by simp at h⟩
  | append_singleton done id ih =>
    obtain ⟨journal, w, hcalm, -, hfiles, -⟩ := ih fun other hother => hdone other (List.mem_append_left _ hother)
    obtain ⟨⟨node, hnode, path, hsafe⟩, hfits⟩ := hdone id (List.mem_append_right _ (List.mem_singleton_self _))
    have hartifact := node_artifact_eq hnode
    have hrecordable := recordable_of_compiled hfits (hfiles _)
    rw [hartifact] at hrecordable
    obtain ⟨w', hturn, hlogged, hwritten⟩ := calm_compile_helper shown journal hnode hsafe
      (show other_checks dag start opened id = _ from rfl) hrecordable
    refine ⟨_, w', ?_, hlogged, fun path => ?_, fun earlier other hsplit => ?_⟩
    · rw [List.foldlM_append, Prog.calm_bind, hcalm]
      dsimp only
      rw [List.foldlM_cons, Prog.calm_bind, hturn]
      rfl
    · rw [hwritten, hartifact, Dict.get?_set, hfiles, compiled_file, compiled_file, List.map_append]
      by_cases hpath : path = artifact_path node.file
      · simp [hpath, hartifact]
      · simp [hpath, hartifact]
    · obtain ⟨rfl, hlast⟩ := List.append_inj' hsplit rfl
      obtain rfl := List.singleton_inj.mp hlast
      refine ⟨node.file, List.mem_append_right _ (List.mem_singleton_self _), hartifact.symm, ?_⟩
      rw [hartifact]
      show (journal.compiled_artifacts.set node.file (w.disk.files.get? (artifact_path node.file))).get? node.file = _
      rw [Dict.get?_set_self, hfiles]

/-- A later helper of the same artifact finds the other one. -/
theorem apart_of_keeps {C : CharClass} {documents : Documents} {changed done rest : List String} {id : String}
    (hkeeps : KeepsArtifacts C dag documents start opened) (hchanged : changed_helpers C dag documents start = .ok changed)
    (hloop : ∀ size fails shown checks, helper_loop dag (compile_helper size fails shown checks dag false) (affected_helpers dag changed) opened =
      ((done ++ [id]) ++ rest).foldlM (compile_helper size fails shown checks dag false) opened)
    (hopen : start.disk.journal = some (.materialization opened))
    (hdone : ∀ other ∈ done ++ [id], Compilable dag other ∧ start.recordable (node_artifact dag other) = true) :
    node_artifact dag id ∉ done.map (node_artifact dag) ∧
      start.disk.files.get? (node_artifact dag id) = opened.untouched start (node_artifact dag id) := by
  obtain ⟨journal, w, hcalm, hlogged, -, hrecord⟩ := calm_helpers hopen (fun _ => .pending) hdone
  obtain ⟨file, hfile, hartifact, hsnapshot⟩ := hrecord done id rfl
  obtain ⟨moves, hrun⟩ := Prog.exists_calm_bind PublishStep.apply hcalm fun journal =>
    rest.foldlM (compile_helper (fun _ => 0) (fun _ => false) (fun _ => .pending) (other_checks dag start opened) dag false) journal
  have hdrive : ∃ left, Prog.drive PublishStep.apply (.act :: moves) (compile_changed_helpers C (fun _ => 0) (fun _ => false)
      (fun _ => .pending) (other_checks dag start opened) dag false documents opened, start) = some (left, w) := by
    refine ⟨_, Eq.trans ?_ hrun⟩
    rw [← List.foldlM_append, ← hloop]
    show Prog.drive PublishStep.apply moves ((Prog.ofExcept (changed_helpers C dag documents start) >>= fun changed =>
      compile_affected (fun _ => 0) (fun _ => false) (fun _ => .pending) (other_checks dag start opened) dag false changed opened), start) = _
    rw [hchanged]
    rfl
  obtain ⟨left, hdrive⟩ := hdrive
  have hfaithful := hkeeps _ _ _ _ _ _ _ _ _ hdrive hlogged file hfile
  rw [hsnapshot, hartifact] at hfaithful
  have hsame := Option.some.inj hfaithful
  rw [compiled_file] at hsame
  by_cases hbefore : node_artifact dag id ∈ done.map (node_artifact dag)
  · rw [if_pos hbefore] at hsame
    exact absurd hsame (other_text_ne _)
  · rw [if_neg hbefore] at hsame
    exact ⟨hbefore, hsame⟩

/-- **The journal is faithful at every point of every run** just when no artifact was touched before it is recorded. -/
theorem keeps_artifacts_iff {C : CharClass} {documents : Documents} {changed order : List String}
    (hchanged : changed_helpers C dag documents start = .ok changed) (hopen : start.disk.journal = some (.materialization opened))
    (hfresh : opened.compiled_modules = []) (hcompilable : ∀ id ∈ order, Compilable dag id)
    (hloop : ∀ size fails shown checks outer, helper_loop dag (compile_helper size fails shown checks dag outer) (affected_helpers dag changed) opened =
      order.foldlM (compile_helper size fails shown checks dag outer) opened) :
    KeepsArtifacts C dag documents start opened ↔
      ((recordable_helpers dag start order).map (node_artifact dag)).Nodup ∧
      ∀ id ∈ recordable_helpers dag start order,
        start.disk.files.get? (node_artifact dag id) = opened.untouched start (node_artifact dag id) := by
  constructor
  · intro hkeeps
    have hturn (done : List String) (id : String) (rest : List String) (hsplit : recordable_helpers dag start order = (done ++ [id]) ++ rest) :
        node_artifact dag id ∉ done.map (node_artifact dag) ∧
          start.disk.files.get? (node_artifact dag id) = opened.untouched start (node_artifact dag id) := by
      have horder : order = (done ++ [id]) ++ (rest ++ order.dropWhile fun id => start.recordable (node_artifact dag id)) := by
        rw [← List.append_assoc, ← hsplit]
        exact List.takeWhile_append_dropWhile.symm
      refine apart_of_keeps hkeeps hchanged (fun size fails shown checks => horder ▸ hloop size fails shown checks false) hopen fun other hother => ?_
      have hmem : other ∈ recordable_helpers dag start order := hsplit ▸ List.mem_append_left _ hother
      exact ⟨hcompilable other (List.takeWhile_subset _ hmem),
        @List.mem_takeWhile_imp _ (fun id => start.recordable (node_artifact dag id)) _ _ hmem⟩
    have hstarts (done rest : List String) (hsplit : recordable_helpers dag start order = done ++ rest) :
        (done.map (node_artifact dag)).Nodup := by
      induction done using List.reverseRecOn generalizing rest with
      | nil => exact List.nodup_nil
      | append_singleton done id ih =>
        have hearlier := ih ([id] ++ rest) (by rw [hsplit, List.append_assoc])
        rw [List.map_append]
        refine hearlier.append (List.nodup_singleton _) fun path hpath hlast => ?_
        obtain rfl := List.mem_singleton.mp hlast
        exact (hturn done id rest hsplit).1 hpath
    refine ⟨hstarts _ [] (List.append_nil _).symm, fun id hid => ?_⟩
    obtain ⟨done, rest, hsplit⟩ := List.append_of_mem hid
    exact (hturn done id rest (by rw [hsplit, List.append_assoc]; rfl)).2
  · rintro ⟨hdistinct, huntouched⟩ size fails shown checks outer moves rest now journal hrun hlogged
    have hapart : Apart dag start opened [] order := ⟨fun _ h => absurd h List.not_mem_nil, hdistinct, huntouched⟩
    have hkept := Compiled.kept dag start opened [] opened
    have hbegin (w : World) (hw : Elsewhere start w) : Compiled dag start opened [] opened w :=
      ⟨hw.journal.trans hopen, fun file hfile => absurd (hfresh ▸ hfile) List.not_mem_nil, fun _ _ => by rw [hw.files]⟩
    have hstart : Prog.Kept Elsewhere (FaithfulDisk start opened) (Elsewhere start) :=
      ⟨fun w w' hw hsame => hw.trans _ _ _ hsame, fun w hw => hkept.inside w (hbegin w hw)⟩
    have hchanges (w : World) (hw : Elsewhere start w) : changed_helpers C dag documents w = .ok changed := by
      rw [← hchanged]
      unfold changed_helpers helper_changed
      rw [hw.documents, hw.files]
    have hprogram : Prog.Outline Elsewhere (FaithfulDisk start opened) (Elsewhere start)
        (compile_changed_helpers C size fails shown checks dag outer documents opened) (fun _ => FaithfulDisk start opened)
        fun _ => FaithfulDisk start opened := by
      refine .bind (Q := fun w s => Elsewhere start w ∧ Elsewhere start s) Elsewhere.refl
        (.get hstart fun w w' hw hsame => ⟨hw, hw.trans _ _ _ hsame⟩) fun w s hs => ?_
      rw [hchanges w hs.1]
      refine Prog.Outline.bind (Q := fun _ => Elsewhere start) Elsewhere.refl
        (stays hstart (.ite (with_lock_elsewhere hstart.stable (.ret hstart.stable _)) (.ret hstart.stable _))) (fun _ => ?_) s hs.2
      rw [hloop]
      exact (compile_helpers_outline hapart).mono hbegin (fun _ _ h => h) fun _ _ h => h
    exact ((hprogram start (.refl start)).drive Elsewhere.refl Elsewhere.trans elsewhere_step hrun).inv Elsewhere.refl journal hlogged

end Snapshots

/-! ### Both loops -/

theorem within_congr {pending pending' : List String} (h : ∀ id, id ∈ pending ↔ id ∈ pending') (next : String → List String) :
    within next pending = within next pending' :=
  funext fun _ => List.filter_congr fun id _ => decide_eq_decide.mpr (h id)

theorem mem_changed_helpers {C : CharClass} {dag : Dag} {documents : Documents} {start : World} {changed : List String}
    (h : changed_helpers C dag documents start = .ok changed) (id : String) :
    id ∈ changed ↔ ∃ node ∈ dag.nodes, node.id = id ∧ helper_changed C documents start node = .ok true := by
  unfold changed_helpers at h
  cases hfound : dag.nodes.mapM fun node => (helper_changed C documents start node).map fun changed =>
      if changed then some node.id else none with
  | error e =>
    rw [hfound] at h
    cases h
  | ok found =>
    rw [hfound] at h
    obtain rfl := Except.ok.inj h
    rw [List.reduceOption_mem_iff]
    constructor
    · intro hid
      obtain ⟨node, hnode, hone⟩ := mapM_mem hfound hid
      cases hchanged : helper_changed C documents start node with
      | error e =>
        rw [hchanged] at hone
        cases hone
      | ok yes =>
        rw [hchanged] at hone
        have hone := Except.ok.inj hone
        cases yes with
        | false => cases hone
        | true => exact ⟨node, hnode, Option.some.inj hone, hchanged⟩
    · rintro ⟨node, hnode, rfl, hchanged⟩
      obtain ⟨one, hmem, hone⟩ := mapM_eq_ok hfound hnode
      rw [hchanged] at hone
      obtain rfl : some node.id = one := Except.ok.inj hone
      exact hmem

/-! ### Modules of their own -/

/-- The last component of a path ends it. -/
theorem suffix_intercalate {sep last : Text} {parts : List Text} (h : parts.getLast? = some last) : last <:+ sep.intercalate parts := by
  induction parts with
  | nil => cases h
  | cons part parts ih =>
    cases parts with
    | nil =>
      rw [List.intercalate_singleton, show part = last from Option.some.inj h]
    | cons next parts =>
      rw [List.getLast?_cons_cons] at h
      rw [List.intercalate_cons_cons]
      exact (ih h).trans (List.suffix_append ..)

theorem normal_path_suffix {file : String} (h : lean_suffix file = true) : ".lean".toList <:+ (normal_path file).toList := by
  have hpath : (normal_path file).toList = ['/'].intercalate (path_parts file) := String.toList_ofList
  unfold lean_suffix at h
  obtain ⟨hsuffix, hlong⟩ := Bool.and_eq_true_iff.mp h
  rw [hpath]
  cases hlast : (path_parts file).getLast? with
  | none =>
    rw [hlast] at hlong
    exact absurd hlong (by decide)
  | some last =>
    rw [hlast, Option.getD_some, List.isSuffixOf_iff_suffix] at hsuffix
    exact hsuffix.trans (suffix_intercalate hlast)

theorem artifact_path_text (file : String) : (artifact_path file).toList = ".lake/build/lib/lean/".toList ++
    (normal_path file).toList.take ((normal_path file).toList.length - 5) ++ ".olean".toList := by
  have hstem (text : Text) : (String.ofList text).toList = text := String.toList_ofList
  unfold artifact_path
  dsimp only
  rw [String.toList_append, String.toList_append, hstem ((normal_path file).toList.take _)]

/-- Modules of different paths have different artifacts. -/
theorem normal_path_of_artifact {file other : String} (h : lean_suffix file = true) (h' : lean_suffix other = true)
    (heq : artifact_path file = artifact_path other) : normal_path file = normal_path other := by
  have hsplit {path suffix : Text} (hsuffix : suffix <:+ path) (hfive : suffix.length = 5) :
      path = path.take (path.length - 5) ++ suffix := by
    obtain ⟨front, rfl⟩ := hsuffix
    rw [List.length_append, hfive, Nat.add_sub_cancel, List.take_left]
  have hfive : ".lean".toList.length = 5 := by decide
  have htext := congrArg String.toList heq
  rw [artifact_path_text, artifact_path_text] at htext
  have hstem := List.append_cancel_left (List.append_cancel_right htext)
  rw [← String.toList_inj, hsplit (normal_path_suffix h) hfive, hsplit (normal_path_suffix h') hfive, hstem]
/-- The modules of the helpers. -/
def own_modules (dag : Dag) : List String := (dag.nodes.filter fun node => !node.original).map fun node => normal_path node.file

/-- Helpers with modules of their own have artifacts of their own. -/
theorem node_artifact_injective {max_nodes : Nat} (h : dag.Wellformed max_nodes) (hmodules : (own_modules dag).Nodup) {node other : Node}
    (hnode : node ∈ dag.nodes ∧ node.original = false) (hother : other ∈ dag.nodes ∧ other.original = false)
    (heq : node_artifact dag node.id = node_artifact dag other.id) : node = other := by
  rw [node_artifact_eq (Dag.by_id_of_mem h.distinct hnode.1), node_artifact_eq (Dag.by_id_of_mem h.distinct hother.1)] at heq
  have hpath := normal_path_of_artifact (h.nodes node hnode.1).1.lean (h.nodes other hother.1).1.lean heq
  refine List.inj_on_of_nodup_map hmodules ?_ ?_ hpath
  · exact List.mem_filter.mpr ⟨hnode.1, by rw [hnode.2]; rfl⟩
  · exact List.mem_filter.mpr ⟨hother.1, by rw [hother.2]; rfl⟩

/-- **Helpers are written and compiled once each, in the order of their dependencies**, and the journal can put
back what the transaction found when each helper has a module of its own, whose artifact the transaction did not write before. -/
theorem compile_changed_helpers_exact {C : CharClass} {dag : Dag} {documents : Documents} {max_nodes : Nat} {start : World}
    {opened : MaterializationJournal} {changed : List String} (hvalid : dag.validate max_nodes = .ok ())
    (hmodules : (own_modules dag).Nodup) (hchanged : changed_helpers C dag documents start = .ok changed)
    (hopen : start.disk.journal = some (.materialization opened)) (hfresh : opened.compiled_modules = [])
    (hunwritten : ∀ node ∈ dag.nodes, node.original = false → opened.writes.get? (artifact_path node.file) = none) :
    (∀ id, id ∈ changed ↔ ∃ node ∈ dag.nodes, node.id = id ∧ helper_changed C documents start node = .ok true) ∧
    (∃ order : List String, order.Nodup ∧
      (∀ id, id ∈ order ↔ ∃ node ∈ dag.nodes, node.id = id ∧ node.original = false ∧
        ∃ first ∈ changed, Relation.ReflTransGen (fun a b => b ∈ dag.dependencies a) id first) ∧
      (order.Pairwise fun earlier later => ¬Needs (within dag.dependencies order) earlier later) ∧
      ∀ size fails shown checks outer, compile_affected size fails shown checks dag outer changed opened =
        (if outer then with_lock (pure ()) else pure ()) >>= fun _ =>
          order.foldlM (compile_helper size fails shown checks dag outer) opened) ∧
    KeepsArtifacts C dag documents start opened ∧
    ∀ skeletons : Dict String Text, ∃ order : List String, order.Perm skeletons.keys ∧
      (order.Pairwise fun earlier later => ¬Needs (within dag.dependencies order) earlier later) ∧
      ∀ size fails original_imports original_modules made,
        materialize_helpers C size fails dag original_imports original_modules skeletons made =
          Prog.ofExcept (check_index dag skeletons.keys) >>= fun _ =>
            order.foldlM (materialize_helper C size fails dag original_imports original_modules skeletons) made := by
  have hwell := (dag.validate_iff max_nodes).mp hvalid
  have hloop {pending : List String} (hpending : pending.Nodup) :
      (helper_order dag pending).Pairwise fun earlier later =>
        ¬Needs (within dag.dependencies (helper_order dag pending)) earlier later := by
    rw [within_congr (fun id => (helper_order_perm hwell hpending).mem_iff)]
    exact helper_order_pairwise hwell hpending
  have hnodup := affected_helpers_nodup dag changed
  have hmem (id : String) : id ∈ helper_order dag (affected_helpers dag changed) ↔ id ∈ affected_helpers dag changed :=
    (helper_order_perm hwell hnodup).mem_iff
  have horder : (helper_order dag (affected_helpers dag changed)).Nodup := (helper_order_perm hwell hnodup).nodup_iff.mpr hnodup
  have hhelper {id : String} (hid : id ∈ helper_order dag (affected_helpers dag changed)) :
      ∃ node ∈ dag.nodes, node.id = id ∧ node.original = false := by
    obtain ⟨node, hnode, hsame, hadded, -⟩ := (mem_affected_helpers hwell changed id).mp ((hmem id).mp hid)
    exact ⟨node, hnode, hsame, hadded⟩
  refine ⟨mem_changed_helpers hchanged, ⟨helper_order dag (affected_helpers dag changed), horder,
    fun id => (hmem id).trans (mem_affected_helpers hwell changed id), hloop hnodup, fun size fails shown checks outer => ?_⟩, ?_,
    fun skeletons => ⟨helper_order dag skeletons.keys, helper_order_perm hwell skeletons.distinct, hloop skeletons.distinct,
      fun size fails original_imports original_modules made => ?_⟩⟩
  · rw [compile_affected, helper_loop_eq hwell]
  · have hiff := keeps_artifacts_iff hchanged hopen hfresh (fun id hid => ?_) fun size fails shown checks outer =>
      helper_loop_eq hwell (compile_helper size fails shown checks dag outer) (affected_helpers dag changed) opened
    · refine hiff.mpr ⟨List.Nodup.map_on (fun id hid other hother heq => ?_) ((List.takeWhile_sublist _).nodup horder), fun id hid => ?_⟩
      · obtain ⟨node, hnode, rfl, hadded⟩ := hhelper (List.takeWhile_subset _ hid)
        obtain ⟨node', hnode', rfl, hadded'⟩ := hhelper (List.takeWhile_subset _ hother)
        exact congrArg Node.id (node_artifact_injective hwell hmodules ⟨hnode, hadded⟩ ⟨hnode', hadded'⟩ heq)
      · obtain ⟨node, hnode, rfl, hadded⟩ := hhelper (List.takeWhile_subset _ hid)
        rw [node_artifact_eq (Dag.by_id_of_mem hwell.distinct hnode), MaterializationJournal.untouched, hunwritten node hnode hadded]
    · obtain ⟨node, hnode, rfl, -⟩ := hhelper hid
      exact ⟨node, Dag.by_id_of_mem hwell.distinct hnode, (safe_iff node.file).mpr (hwell.nodes node hnode).1⟩
  · rw [materialize_helpers, helper_loop_eq hwell]

/-! A goal over two lemmas, each in a module of its own or both in one. -/

def helperLemma (name file : String) : Node where
  id := name
  name := name
  statement := "lemma " ++ name ++ " : 1 = 1"
  file := file

def apartDag : Dag where
  nodes := [{ sampleGoal with dependencies := ["left", "right"] }, helperLemma "left" "LeanFlowProofs/left.lean",
    helperLemma "right" "LeanFlowProofs/right.lean"]
  roots := ["goal"]

def sharedDag : Dag where
  nodes := [{ sampleGoal with dependencies := ["left", "right"] }, helperLemma "left" "LeanFlowProofs/shared.lean",
    helperLemma "right" "LeanFlowProofs/shared.lean"]
  roots := ["goal"]

def sharedDocuments : Documents :=
  Dict.empty.set "LeanFlowProofs/shared.lean" { path := "LeanFlowProofs/shared.lean", baseline := "lemma left : 1 = 1 := rfl".toList }

/-- The artifacts of an earlier build are there. -/
def builtStart : World where
  disk := {
    files := (Dict.empty.set ".lake/build/lib/lean/LeanFlowProofs/shared.olean" "built".toList).set
      ".lake/build/lib/lean/LeanFlowProofs/left.olean" "built".toList
    journal := some (.materialization { id := "transaction" }) }

theorem apart_changed : apartDag.validate 8 = .ok () ∧ (own_modules apartDag).Nodup ∧
    changed_helpers .ascii apartDag Dict.empty builtStart = .ok ["left", "right"] := by
  decide +kernel

theorem shared_changed : sharedDag.validate 8 = .ok () ∧
    changed_helpers .ascii sharedDag sharedDocuments builtStart = .ok ["left", "right"] := by
  decide +kernel

theorem sample_compiled : (∃ order : List String, order.Nodup ∧ ∀ size fails shown checks,
    compile_affected size fails shown checks apartDag false ["left", "right"] { id := "transaction" } =
      order.foldlM (compile_helper size fails shown checks apartDag false) { id := "transaction" }) ∧
    KeepsArtifacts .ascii apartDag Dict.empty builtStart { id := "transaction" } := by
  obtain ⟨-, ⟨order, hnodup, -, -, hloop⟩, hkeeps, -⟩ :=
    compile_changed_helpers_exact apart_changed.1 apart_changed.2.1 apart_changed.2.2 rfl rfl fun _ _ _ => rfl
  exact ⟨⟨order, hnodup, fun size fails shown checks => hloop size fails shown checks false⟩, hkeeps⟩

/-- The second lemma's record is what the first one's compilation left. -/
theorem shared_overwritten : sharedDag.validate 8 = .ok () ∧
    changed_helpers .ascii sharedDag sharedDocuments builtStart = .ok ["left", "right"] ∧
    ¬KeepsArtifacts .ascii sharedDag sharedDocuments builtStart { id := "transaction" } := by
  have hwell := (sharedDag.validate_iff 8).mp shared_changed.1
  have haffected : affected_helpers sharedDag ["left", "right"] = ["left", "right"] := by decide +kernel
  have hperm : (helper_order sharedDag ["left", "right"]).Perm ["left", "right"] := helper_order_perm hwell (by decide)
  refine ⟨shared_changed.1, shared_changed.2, fun hkeeps => ?_⟩
  have hcompilable (id : String) (hid : id ∈ ["left", "right"]) : Compilable sharedDag id ∧
      builtStart.recordable (node_artifact sharedDag id) = true := by
    rcases List.mem_pair.mp hid with rfl | rfl
    · exact ⟨⟨helperLemma "left" "LeanFlowProofs/shared.lean", by decide +kernel, "LeanFlowProofs/shared.lean", by decide +kernel⟩, by decide +kernel⟩
    · exact ⟨⟨helperLemma "right" "LeanFlowProofs/shared.lean", by decide +kernel, "LeanFlowProofs/shared.lean", by decide +kernel⟩, by decide +kernel⟩
  have hall : recordable_helpers sharedDag builtStart (helper_order sharedDag ["left", "right"]) =
      helper_order sharedDag ["left", "right"] :=
    List.takeWhile_eq_self_iff.mpr fun id hid => (hcompilable id (hperm.subset hid)).2
  obtain ⟨hdistinct, -⟩ := (keeps_artifacts_iff shared_changed.2 rfl rfl
    (fun id hid => (hcompilable id (hperm.subset hid)).1) fun size fails shown checks outer => by
      rw [haffected]
      exact helper_loop_eq hwell _ _ _).mp hkeeps
  rw [hall, (hperm.map _).nodup_iff] at hdistinct
  exact absurd hdistinct (by decide +kernel)

end LeanFlow.Transactions
