import LeanFlow.Transactions.Candidates

/-! What the parts of an acceptance keep.

The verifier, the files and the change records touch no graph. The candidate is back
in its node, or the node is proved, whenever the acceptance persists. -/
namespace LeanFlow.Transactions
open General Goals Source Stock

variable {k : Stock} {g : Hold k} {w w' : World} {C : CharClass} {sha256 : Text → String}

/-! ### Parts that touch no graph -/

theorem hold_modify {f : World → World} (hf : ∀ w, Same w (f w)) :
    Prog.Keeps Workers g.At (Prog.modify f : Controller Unit) :=
  .modify g.stable fun w h => h.same (hf w)

theorem hold_failing (fails : Bool) (e : Raised) : Prog.Keeps Workers g.At (failing fails e) :=
  .ite (.raise g.stable e) (.ret g.stable _)

theorem hold_checked {α : Type} (result : Except ValueError α) : Prog.Keeps Workers g.At (checked result) :=
  .ofExcept g.stable _

theorem hold_assert_sources : Prog.Keeps Workers g.At (assert_sources C) :=
  .bind Workers.refl (.get g.stable) fun _ => .ofExcept g.stable _

theorem hold_find_document (file : String) : Prog.Keeps Workers g.At (find_document file) := by
  refine .bind Workers.refl (.get g.stable) fun w => ?_
  cases w.documents.get? file with
  | none => exact .raise g.stable _
  | some document => exact .ret g.stable document

theorem hold_find_node (id : String) : Prog.Keeps Workers g.At (find_node id) := by
  refine .bind Workers.refl (.get g.stable) fun w => ?_
  cases w.dag.by_id id with
  | none => exact .raise g.stable _
  | some node => exact .ret g.stable node

theorem same_setChanges (f : List Change → List Change) (w : World) : Same w (w.setChanges f) :=
  ⟨rfl, rfl, rfl, rfl, rfl⟩

theorem same_writeFile (path : String) (content : Text) (w : World) : Same w (w.writeFile path content) :=
  ⟨rfl, rfl, rfl, rfl, rfl⟩

theorem same_unlink (path : String) (w : World) : Same w (w.unlink path) := ⟨rfl, rfl, rfl, rfl, rfl⟩

theorem same_put (path : String) (content : Option Text) (w : World) : Same w (w.put path content) := by
  cases content with
  | none => exact same_unlink path w
  | some content => exact same_writeFile path content w

theorem hold_record_change (fails : Bool) (document : SourceDocument) (agent_id : String) :
    Prog.Keeps Workers g.At (record_change fails document agent_id) :=
  .bind Workers.refl (hold_failing _ _) fun _ => .bind Workers.refl (.get g.stable) fun _ =>
    .bind Workers.refl (.ofExcept g.stable _) fun _ => hold_modify (same_setChanges _)

theorem hold_stage_change (path : String) : Prog.Keeps Workers g.At (stage_change path) := by
  refine .bind Workers.refl (.get g.stable) fun _ => .bind Workers.refl (.ofExcept g.stable _) fun prior => ?_
  cases prior with
  | none => exact .raise g.stable _
  | some i => exact hold_modify (same_setChanges _)

theorem hold_restore_change (path : String) (before : Option Change) :
    Prog.Keeps Workers g.At (restore_change path before) := by
  refine .bind Workers.refl (.get g.stable) fun _ => .bind Workers.refl (.ofExcept g.stable _) fun prior => ?_
  cases prior with
  | none => exact .ret g.stable _
  | some i =>
    cases before with
    | none => exact hold_modify (same_setChanges _)
    | some before =>
      refine .bind Workers.refl (hold_modify (same_setChanges _)) fun _ => ?_
      refine .bind Workers.refl (hold_modify (same_setChanges _)) fun _ => ?_
      exact hold_modify (same_setChanges _)

/-! ### The progress lock -/

theorem Stock.Hold.At.acquire (h : g.At w) : g.At w.acquire := by
  unfold World.acquire
  split
  · exact h.same ⟨rfl, rfl, rfl, rfl, rfl⟩
  · rename_i p hp
    have hsaved : k.Graph (p.complete w.state.changes).dag := by
      rw [Publishing.complete, dag_publication]
      exact h.durable.copied p hp
    have hnone (q : Publishing) (hq : none = some q) : k.Graph q.copied.dag := by cases hq
    exact (h.save hsaved hnone).same ⟨rfl, rfl, rfl, rfl, rfl⟩

theorem hold_with_lock {x : Controller Unit} (hx : Prog.Keeps Workers g.At x) :
    Prog.Keeps Workers g.At (with_lock x) := by
  have hrelease : Prog.Keeps Workers g.At (Prog.modify World.release : Controller Unit) :=
    hold_modify fun _ => ⟨rfl, rfl, rfl, rfl, rfl⟩
  refine .bind Workers.refl (.modify g.stable fun w h => h.acquire) fun _ => ?_
  refine .bind Workers.refl (Prog.Keeps.handle Workers.refl hx fun e => ?_) fun _ => hrelease
  exact .bind Workers.refl hrelease fun _ => .raise g.stable e

theorem hold_publish (fails : Bool) (shown : Node → NodeStatus) :
    Prog.Keeps Workers g.At (publish fails shown) := by
  refine hold_with_lock (.bind Workers.refl (hold_failing _ _) fun _ => .modify g.stable fun w h => ?_)
  have hsaved : k.Graph (w.state.publication shown).dag := by
    rw [dag_publication]
    exact h.durable.live
  exact h.save hsaved h.durable.copied

theorem hold_progress_call (shown : Node → NodeStatus) (begin_fails end_fails : Bool) {x : Controller Unit}
    (hx : Prog.Keeps Workers g.At x) :
    Prog.Keeps Workers g.At (progress_call shown begin_fails end_fails x) := by
  refine .bind Workers.refl (hold_publish _ _) fun _ => ?_
  refine .bind Workers.refl (Prog.Keeps.handle Workers.refl hx fun e => ?_) fun _ => hold_publish _ _
  exact .bind Workers.refl (hold_publish _ _) fun _ => .raise g.stable e

/-- Whole graphs may be persisted. -/
theorem hold_persist (hgraph : ∀ d, g.dag d → k.Graph d) (fails : StorePart → Bool) (shown : Node → NodeStatus) :
    Prog.Keeps Workers g.At (persist fails shown) := by
  have hstore : Prog.Keeps Workers g.At (store_documents fails) := by
    refine .bind Workers.refl (.get g.stable) fun w => .ite ?_ (.ret g.stable _)
    refine .bind Workers.refl (hold_failing _ _) fun _ => .bind Workers.refl (hold_modify same_checkpoint) fun _ => ?_
    exact .bind Workers.refl (hold_failing _ _) fun _ => hold_modify fun _ => ⟨rfl, rfl, rfl, rfl, rfl⟩
  refine hold_with_lock (.bind Workers.refl (.bind Workers.refl hstore fun _ => ?_) fun _ => ?_)
  · refine .bind Workers.refl (.modify g.stable fun w h => ?_) fun _ =>
      .bind Workers.refl (hold_failing _ _) fun _ => hold_failing _ _
    exact { h with durable := { h.durable with live := hgraph _ h.dag } }
  · refine .bind Workers.refl (hold_failing _ _) fun _ => .modify g.stable fun w h => ?_
    have hsaved : k.Graph (w.state.publication shown).dag := by
      rw [dag_publication]
      exact h.durable.live
    exact h.save hsaved h.durable.copied

/-! ### Assertions of an acceptance -/

/-- Every graph is whole. -/
def whole (k : Stock) : Hold k := ⟨k.Graph, fun _ => True, fun _ h _ => h⟩

/-- A candidate is accepted that may be `out` of its node; the journal, if any, is as `J` says. -/
def taken (out : Bool) {id : String} {candidate : List Text} (hfits : k.Fits id candidate)
    (J : Option Journal → Prop) : Hold k :=
  ⟨fun d => k.Taken id d ∧ (out = false → k.Graph d), J, fun _ h => h.1.graph hfits⟩

theorem Stock.Graph.accepts {out : Bool} {d : Dag} (h : k.Graph d) (id : String) :
    k.Taken id d ∧ (out = false → k.Graph d) := ⟨h.taken id, fun _ => h⟩

/-- Wherever a run is, its files are as they should. -/
abbrev Stock.Guard (k : Stock) (w : World) : Prop := k.Stored w.disk

/-- From one assertion to another. -/
abbrev Passes (k : Stock) {α : Type} (P : World → Prop) (x : Controller α) (Q : α → World → Prop)
    (E : World → Prop) : Prop := Prog.Outline Workers k.Guard P x Q fun _ => E

theorem keeps_passes {α : Type} {x : Controller α} (hx : Prog.Keeps Workers g.At x) :
    Passes k g.At x (fun _ => g.At) g.At := hx.outline g.kept.inside

/-- What is known may be forgotten. -/
theorem Stock.Hold.At.weaken {g' : Hold k} (h : g.At w) (hdag : ∀ d, g.dag d → g'.dag d)
    (hjournal : ∀ j, g.journal j → g'.journal j) : g'.At w :=
  ⟨h.durable, hdag _ h.dag, hjournal _ h.journal⟩

/-- Fields of a node are assigned. -/
theorem update_passes {g' : Hold k} {id : String} {f : Node → Node}
    (hdag : ∀ d, g.dag d → g'.dag (d.update id f)) (hjournal : ∀ j, g.journal j → g'.journal j) {E : World → Prop} :
    Passes k g.At (Prog.modify (World.updateNode id f)) (fun _ => g'.At) E :=
  .modify g.kept g'.kept fun _ h =>
    ⟨{ h.durable with }, hdag _ h.dag, hjournal _ h.journal⟩

/-- The journal is written or dropped. -/
theorem journal_passes {g' : Hold k} {journal : Option Journal} (hsound : k.Sound journal)
    (hdag : ∀ d, g.dag d → g'.dag d) (hjournal : g'.journal journal) {E : World → Prop} :
    Passes k g.At (Prog.modify (World.setJournal journal)) (fun _ => g'.At) E :=
  .modify g.kept g'.kept fun _ h =>
    ⟨{ h.durable with journal := hsound }, hdag _ h.dag, hjournal⟩

/-! ### Recovery -/

section Recovery

variable {shown : Node → NodeStatus} {fails : RecoverStep → Bool}

/-- The candidate of the journal goes back into its node, and the graph is persisted. -/
theorem undo_proof_passes (hany : ∀ j, g.journal j) {journal : ProofJournal}
    (hput : ∀ d f, g.dag d → (∀ node, (f node).id = node.id ∧ (f node).holes = node.holes ∧
      (f node).candidate = journal.candidate) → k.Graph (d.update journal.node_id f)) (hwhole : ∀ d, k.Graph d → g.dag d) :
    Passes k g.At (undo_proof C fails shown journal) (fun _ => g.At) g.At := by
  have hback {w : World} (h : (whole k).At w) : g.At w := h.weaken hwhole fun j _ => hany j
  refine .bind Workers.refl (keeps_passes (hold_checked _)) fun text => ?_
  refine .bind Workers.refl (keeps_passes (hold_failing _ _)) fun _ => ?_
  refine .bind Workers.refl (keeps_passes (hold_modify (same_writeFile _ _))) fun _ => ?_
  refine .bind Workers.refl (keeps_passes (hold_modify fun w => ⟨rfl, rfl, rfl, rfl, rfl⟩)) fun _ => ?_
  refine .bind Workers.refl (keeps_passes (hold_failing _ _)) fun _ => ?_
  refine .bind Workers.refl (keeps_passes (hold_modify (same_unlink _))) fun _ => ?_
  refine .bind (Q := fun _ => (whole k).At) Workers.refl ?_ fun _ => ?_
  · refine .bind Workers.refl (keeps_passes (hold_find_node _)) fun node => ?_
    refine .bind Workers.refl (keeps_passes (.get g.stable)) fun w => ?_
    refine .bind Workers.refl (keeps_passes (.ofExcept g.stable _)) fun pending => ?_
    refine update_passes (fun d h => ?_) fun _ _ => trivial
    refine hput d _ h fun node => ⟨?_, ?_, ?_⟩ <;> rfl
  · refine Prog.Outline.mono (P := (whole k).At) ?_ (fun _ h => h) (fun _ _ => hback) fun _ _ => hback
    exact .bind Workers.refl (keeps_passes (hold_restore_change _ _)) fun _ =>
      keeps_passes (hold_persist (fun _ h => h) _ _)

theorem hold_check_committed (journal : ProofJournal) (current : String) :
    Prog.Keeps Workers g.At (check_committed C sha256 journal current) := by
  refine .bind Workers.refl (.get g.stable) fun w => ?_
  cases w.documents.get? journal.before_document.path with
  | none => exact .raise g.stable _
  | some document =>
    exact .bind Workers.refl (hold_checked _) fun _ => .ite (.raise g.stable _) (.ret g.stable _)

theorem recover_install_passes (hany : ∀ j, g.journal j) {journal : ProofJournal}
    (hput : ∀ d f, g.dag d → (∀ node, (f node).id = node.id ∧ (f node).holes = node.holes ∧
      (f node).candidate = journal.candidate) → k.Graph (d.update journal.node_id f)) (hwhole : ∀ d, k.Graph d → g.dag d) :
    Passes k g.At (recover_install C sha256 fails shown journal) (fun _ => g.At) g.At := by
  refine .bind Workers.refl (keeps_passes (.get g.stable)) fun w => ?_
  cases w.disk.files.get? journal.before_document.path with
  | none => exact keeps_passes (.raise g.stable _)
  | some content =>
    refine .ite (fun _ => keeps_passes (.raise g.stable _)) fun _ => ?_
    refine .bind (Q := fun _ => g.At) Workers.refl
      (.ite (fun _ => keeps_passes (hold_check_committed journal _)) fun _ => undo_proof_passes hany hput hwhole) fun _ => ?_
    exact .bind Workers.refl (keeps_passes (hold_failing _ _)) fun _ =>
      journal_passes (show k.Sound none from trivial) (fun _ h => h) (hany none)

/-- A planning transaction is undone to the graph it started from. -/
theorem recover_materialization_passes {journal : MaterializationJournal} (hbefore : k.Graph journal.before_dag) :
    Passes k (whole k).At (recover_materialization fails shown journal) (fun _ => (whole k).At) (whole k).At := by
  have hstable := (whole k).stable
  have hfile (observed : World) (item : String × WriteEntry) :
      Prog.Keeps Workers (whole k).At (restore_file fails observed item) := by
    refine .bind Workers.refl (.get hstable) fun w => .ite (.raise hstable _) ?_
    refine .bind Workers.refl (hold_failing _ _) fun _ => .bind Workers.refl (hold_modify (same_put _ _)) fun _ => ?_
    refine .ite (.bind Workers.refl (hold_failing _ _) fun _ => hold_modify (same_unlink _)) (.ret hstable _)
  have hartifact (artifact : String × Option Text) :
      Prog.Keeps Workers (whole k).At (restore_artifact fails artifact) :=
    .bind Workers.refl (hold_failing _ _) fun _ => hold_modify (same_put _ _)
  refine keeps_passes (.bind Workers.refl (.get hstable) fun w => .bind Workers.refl (.ofExcept hstable _)
    fun artifacts => .bind Workers.refl (.get hstable) fun observed =>
      .bind Workers.refl (.ofExcept hstable _) fun _ => .bind Workers.refl (.ite (.ret hstable _) ?_) fun _ =>
        .bind Workers.refl (hold_failing _ _) fun _ => ?_)
  · refine .bind Workers.refl (.forM Workers.refl hstable fun item _ => hfile observed item) fun _ => ?_
    refine .bind Workers.refl (.forM Workers.refl hstable fun artifact _ => hartifact artifact) fun _ => ?_
    refine .bind Workers.refl (.modify hstable fun w h => ?_) fun _ => hold_persist (fun _ h => h) _ _
    exact ⟨{ h.durable with }, hbefore, trivial⟩
  · exact .modify hstable fun w h => ⟨{ h.durable with journal := trivial }, h.dag, trivial⟩

/-- Putting the candidate of the journal back makes the graph whole. -/
theorem put_graph {id : String} {candidate : List Text} (hfits : k.Fits id candidate) {d : Dag} {f : Node → Node}
    (h : k.Taken id d)
    (hf : ∀ node, (f node).id = node.id ∧ (f node).holes = node.holes ∧ (f node).candidate = candidate) :
    k.Graph (d.update id f) :=
  h.update (fun node => (hf node).1) fun node hid hholes _ => by
    obtain ⟨hsame, hkept, hcandidate⟩ := hf node
    exact whole_candidate hfits (hsame.trans hid) (hkept ▸ hholes) hcandidate

/-- What a recovery reads of the journal. -/
theorem journal_read : Passes k g.At (Prog.get : Controller World)
    (fun w w' => g.At w' ∧ g.journal w.disk.journal ∧ k.Sound w.disk.journal) g.At :=
  .get g.kept fun w w' h hworkers => ⟨g.stable w w' h hworkers, h.journal, h.durable.journal⟩

/-- A resume recovers what it finds. -/
theorem recover_proof_passes :
    Passes k (whole k).At (recover_proof C sha256 fails shown) (fun _ => (whole k).At) (whole k).At := by
  refine .bind Workers.refl journal_read fun w w' h => ?_
  obtain ⟨hw', -, hsound⟩ := h
  revert w'
  cases hjournal : w.disk.journal with
  | none => exact fun w' hw' => keeps_passes (.ret (whole k).stable _) w' hw'
  | some journal =>
    rw [hjournal] at hsound
    cases journal with
    | proof journal =>
      exact recover_install_passes (fun _ => trivial) (fun d f h hf => put_graph hsound (h.taken _) hf) fun _ h => h
    | materialization journal => exact recover_materialization_passes hsound

end Recovery

/-- The journal of this acceptance, or none. -/
def Own (id : String) (journal : Option Journal) : Prop :=
  ∀ j, journal = some j → ∃ p, j = .proof p ∧ p.node_id = id

/-- The rollback of an acceptance recovers its own journal. -/
theorem roll_back_passes {id : String} {candidate : List Text} (hfits : k.Fits id candidate)
    {fails : RecoverStep → Bool} {shown : Node → NodeStatus} {out : Bool} :
    Passes k (taken out hfits (Own id)).At (recover_proof C sha256 fails shown)
      (fun _ => (taken out hfits fun _ => True).At) (taken out hfits fun _ => True).At := by
  have hforget {w : World} (h : (taken out hfits (Own id)).At w) : (taken out hfits fun _ => True).At w :=
    h.weaken (fun _ h => h) fun _ _ => trivial
  refine .bind Workers.refl (journal_read.mono (fun _ h => h) (fun _ _ h => h) fun _ _ => hforget) fun w w' h => ?_
  obtain ⟨hw', hown, hsound⟩ := h
  have hstart := hforget hw'
  revert w'
  cases hjournal : w.disk.journal with
  | none => exact fun w' _ h => keeps_passes (.ret (taken out hfits fun _ => True).stable _) w' h
  | some journal =>
    rw [hjournal] at hsound
    obtain ⟨p, rfl, rfl⟩ := hown journal hjournal
    refine fun w' _ h => recover_install_passes (g := taken out hfits fun _ => True) (fun _ => trivial)
      (fun d f h hf => put_graph hsound h.1 hf) (fun _ h => h.accepts _) w' h

/-! ### Acceptance -/

section Accept

variable {sub : Submission} {fails : Step → Bool} {shown : Node → NodeStatus}

theorem hold_leave_artifact (step : Step) (artifact : Option Text) :
    Prog.Keeps Workers g.At (leave_artifact fails sub step artifact) := by
  refine .bind Workers.refl (hold_failing _ _) fun _ => ?_
  cases artifact with
  | none => exact .ret g.stable _
  | some artifact => exact hold_modify (same_writeFile _ _)

theorem hold_compile_source : Prog.Keeps Workers g.At (compile_source fails shown sub) := by
  refine .bind Workers.refl (hold_progress_call _ _ _ (hold_leave_artifact _ _)) fun _ => .ite ?_ (.ret g.stable _)
  exact .bind Workers.refl (hold_failing _ _) fun _ => .raise g.stable _

theorem hold_integrate_artifact : Prog.Keeps Workers g.At (integrate_artifact fails shown sub) := by
  unfold integrate_artifact
  cases sub.installed with
  | none => exact hold_compile_source
  | some artifact =>
    refine .bind Workers.refl (hold_progress_call _ _ _ (hold_leave_artifact _ _)) fun _ => .ite ?_ (.ret g.stable _)
    exact .bind Workers.refl (hold_failing _ _) fun _ => hold_compile_source

theorem hold_check_unchanged (before : SourceDocument) : Prog.Keeps Workers g.At (check_unchanged C sub before) := by
  refine .bind Workers.refl (.get g.stable) fun w => ?_
  cases w.disk.files.get? sub.node.file with
  | none => exact .raise g.stable _
  | some content =>
    exact .bind Workers.refl (hold_checked _) fun _ => .ite (.raise g.stable _) (.ret g.stable _)

theorem hold_integrate (before after : SourceDocument) :
    Prog.Keeps Workers g.At (integrate C fails shown sub before after) := by
  refine .bind Workers.refl (hold_failing _ _) fun _ => .bind Workers.refl (hold_check_unchanged before) fun _ => ?_
  refine .bind Workers.refl (hold_checked _) fun text => .bind Workers.refl (hold_failing _ _) fun _ => ?_
  refine .bind Workers.refl (hold_modify (same_writeFile _ _)) fun _ => ?_
  refine .bind Workers.refl (hold_record_change _ _ _) fun _ => .bind Workers.refl (hold_stage_change _) fun _ => ?_
  exact .bind Workers.refl hold_integrate_artifact fun _ => hold_assert_sources

variable {out : Bool} (hfits : k.Fits sub.node.id sub.candidate)

/-- Once the candidate is back or the node is proved, nothing is out. -/
theorem whole_taken {J : Option Journal → Prop} (hJ : ∀ j, J j) (h : (whole k).At w) : (taken out hfits J).At w :=
  h.weaken (fun _ h => h.accepts _) fun j _ => hJ j

/-- A failed integration leaves the candidate in its node, unless the rollback fails as well. -/
theorem pause_passes (before : SourceDocument) (error : Raised) {Q : Unit → World → Prop} :
    Passes k (taken out hfits (Own sub.node.id)).At (pause C sha256 fails shown sub before error) Q
      (taken out hfits fun _ => True).At := by
  have hback {w : World} (h : (whole k).At w) : (taken out hfits fun _ => True).At w :=
    whole_taken hfits (fun _ => trivial) h
  have hreset (w : World) : Same w (w.resetReplacements before) := by
    unfold World.resetReplacements
    split <;> exact ⟨rfl, rfl, rfl, rfl, rfl⟩
  have hfailed (e : Raised) : Prog.Keeps Workers (taken out hfits fun _ => True).At (rollback_failed e) := by
    cases e <;> exact .raise (taken out hfits fun _ => True).stable _
  refine .bind (Q := fun _ => (taken out hfits (Own sub.node.id)).At) Workers.refl ?_ fun _ => ?_
  · exact (keeps_passes (hold_modify hreset)).mono (fun _ h => h) (fun _ _ h => h) fun _ _ h =>
      h.weaken (fun _ h => h) fun _ _ => trivial
  refine .bind Workers.refl (.handle Workers.refl (roll_back_passes hfits) fun e => keeps_passes (hfailed e)) fun _ => ?_
  refine .bind (Q := fun _ => (whole k).At) Workers.refl (update_passes (fun d h => ?_) fun _ _ => trivial) fun _ => ?_
  · exact put_graph hfits h.1 fun node => ⟨rfl, rfl, rfl⟩
  refine Prog.Outline.mono (P := (whole k).At) ?_ (fun _ h => h) (fun _ _ h => h) fun _ _ => hback
  exact .bind Workers.refl (keeps_passes (hold_persist (fun _ h => h) _ _)) fun _ =>
    .raise (whole k).kept fun _ h => h

theorem commit_proof_passes (after : SourceDocument) :
    Passes k (taken out hfits fun _ => True).At (commit_proof C sha256 fails shown sub after)
      (fun _ => (whole k).At) (taken out hfits fun _ => True).At := by
  refine .bind Workers.refl (keeps_passes (hold_checked _)) fun text => ?_
  refine .bind (Q := fun _ => (whole k).At) Workers.refl (update_passes (fun d h => ?_) fun _ _ => trivial) fun _ => ?_
  · refine h.1.update (fun _ => rfl) fun node hid hholes _ => whole_proved ?_ rfl rfl
    exact hholes.trans (congrArg k.holes hid.symm)
  refine Prog.Outline.mono (P := (whole k).At) ?_ (fun _ h => h) (fun _ _ h => h) fun _ _ =>
    whole_taken hfits fun _ => trivial
  refine .bind Workers.refl (keeps_passes (hold_record_change _ _ _)) fun _ => ?_
  refine .bind Workers.refl (keeps_passes (.get (whole k).stable)) fun w => ?_
  refine .bind Workers.refl (keeps_passes (.ofExcept (whole k).stable _)) fun _ => ?_
  refine .bind Workers.refl (keeps_passes (hold_modify fun w => ⟨rfl, rfl, rfl, rfl, rfl⟩)) fun _ => ?_
  refine .bind Workers.refl (keeps_passes (hold_persist (fun _ h => h) _ _)) fun _ => ?_
  refine .bind Workers.refl (keeps_passes (hold_failing _ _)) fun _ => ?_
  refine .bind Workers.refl (journal_passes (show k.Sound none from trivial) (fun _ h => h) trivial) fun _ => ?_
  exact keeps_passes (hold_failing _ _)

theorem begin_proof_passes (fails : Bool) (id : String) (before : SourceDocument) (after : Text) :
    Passes k (taken out hfits fun _ => True).At (begin_proof C sha256 fails id sub.node sub.candidate before after)
      (fun _ => (taken out hfits (Own sub.node.id)).At) (taken out hfits fun _ => True).At := by
  have hstable := (taken out hfits fun _ => True).stable
  refine .bind Workers.refl (keeps_passes (.get hstable)) fun w => ?_
  refine .bind Workers.refl (keeps_passes (.ofExcept hstable _)) fun prior => ?_
  refine .bind Workers.refl (keeps_passes (hold_checked _)) fun text => ?_
  refine .bind Workers.refl (keeps_passes (hold_failing _ _)) fun _ => ?_
  refine .bind (Q := fun _ => (taken out hfits (Own sub.node.id)).At) Workers.refl ?_ fun _ =>
    .ret (taken out hfits (Own sub.node.id)).kept fun _ h => h
  refine .modify (taken out hfits fun _ => True).kept (taken out hfits (Own sub.node.id)).kept fun w h => ?_
  exact ⟨{ h.durable with journal := hfits }, h.dag, fun j hj => ⟨_, (Option.some.inj hj).symm, rfl⟩⟩

theorem install_proof_passes : Passes k (taken out hfits fun _ => True).At (install_proof C sha256 fails shown sub)
    (fun _ => (whole k).At) (taken out hfits fun _ => True).At := by
  refine .bind Workers.refl (keeps_passes (hold_failing _ _)) fun _ => ?_
  refine .bind Workers.refl (keeps_passes hold_assert_sources) fun _ => ?_
  refine .bind Workers.refl (keeps_passes (hold_find_document _)) fun before => ?_
  refine .bind Workers.refl (keeps_passes (hold_modify fun w => ⟨rfl, rfl, rfl, rfl, rfl⟩)) fun _ => ?_
  refine .bind Workers.refl (keeps_passes (hold_checked _)) fun text => ?_
  refine .bind Workers.refl (begin_proof_passes hfits _ _ _ _) fun _ => ?_
  refine .bind (Q := fun _ => (taken out hfits (Own sub.node.id)).At) Workers.refl (.handle Workers.refl
    (keeps_passes (hold_integrate _ _)) fun e => pause_passes hfits before e) fun _ => ?_
  exact (commit_proof_passes hfits _).mono (fun _ h => h.weaken (fun _ h => h) fun _ _ => trivial)
    (fun _ _ h => h) fun _ _ h => h

/-- A note does not change what a node is. -/
theorem note_passes (notes : Node → String) : Passes k (taken out hfits fun _ => True).At
    (note_node sub fun node => { node with notes := notes node }) (fun _ => (taken out hfits fun _ => True).At)
    (taken out hfits fun _ => True).At := by
  refine update_passes (fun d h => ?_) fun _ h => h
  refine ⟨?_, fun hout => (h.2 hout).assign (fun _ => rfl) fun node hwhole => ?_⟩
  · refine h.1.reassign (ids_update d fun _ => rfl) fun node hnode => ?_
    obtain ⟨old, hold, ⟨-, rfl⟩ | ⟨-, rfl⟩⟩ := mem_update hnode
    · rcases h.1.nodes old hold with hwhole | hout
      · exact Or.inl ⟨hwhole.holes, hwhole.count, hwhole.candidate, hwhole.kept⟩
      · exact Or.inr hout
    · exact h.1.nodes node hold
  · exact ⟨hwhole.holes, hwhole.count, hwhole.candidate, hwhole.kept⟩

/-- The verifier rejected the candidate. -/
def Verdict.rejects : Verdict → Bool
  | .rejected _ => true
  | _ => false

/-- The candidate is refused though the verifier did not reject it. -/
def Verdict.drops : Verdict → Bool
  | .imports_rejected _ | .inputs_changed => true
  | _ => false

def Verdict.refuses (verdict : Verdict) : Bool := verdict.rejects || verdict.drops

/-- How an acceptance comes out: the node is proved, or it is as it was. -/
def Accepted (out : Bool) {id : String} {candidate : List Text} (hfits : k.Fits id candidate) (verdict : Verdict) : Bool → World → Prop
  | true => (whole k).At
  | false => fun w => verdict.refuses = true ∧ (taken out hfits fun _ => True).At w

/-- **An acceptance persists whole graphs only**; refused, it leaves the node as it was. -/
theorem accept_locked_passes : Passes k (taken out hfits fun _ => True).At (accept_locked C sha256 fails shown sub)
    (Accepted out hfits sub.verdict) (taken out hfits fun _ => True).At := by
  have hkept := (taken out hfits fun _ => True).kept
  refine .bind Workers.refl (keeps_passes (hold_failing _ _)) fun _ => ?_
  refine .bind Workers.refl (keeps_passes hold_assert_sources) fun _ => ?_
  refine .bind Workers.refl (keeps_passes (hold_find_document _)) fun document => ?_
  have hcheck {x : Controller Bool} {Q : Bool → World → Prop} (hx : Passes k (taken out hfits fun _ => True).At x Q
      (taken out hfits fun _ => True).At) : Passes k (taken out hfits fun _ => True).At (do
        let _ ← checked (declaration_source C (staged_document sub document) sub.node (some sub.candidate))
        progress_call shown (fails .check_begin) (fails .check_end) (failing (fails .check) .os_error)
        failing (fails .check_event) .os_error
        x) Q (taken out hfits fun _ => True).At := by
    refine .bind Workers.refl (keeps_passes (hold_checked _)) fun text => ?_
    refine .bind Workers.refl (keeps_passes (hold_progress_call _ _ _ (hold_failing _ _))) fun _ => ?_
    exact .bind Workers.refl (keeps_passes (hold_failing _ _)) fun _ => hx
  cases hverdict : sub.verdict with
  | imports_rejected notes =>
    exact .bind Workers.refl (note_passes hfits _) fun _ => .ret hkept fun _ h => ⟨rfl, h⟩
  | rejected notes =>
    exact hcheck (.bind Workers.refl (note_passes hfits _) fun _ => .ret hkept fun _ h => ⟨rfl, h⟩)
  | inputs_changed =>
    exact hcheck (.bind Workers.refl (note_passes hfits _) fun _ => .ret hkept fun _ h => ⟨rfl, h⟩)
  | unavailable message =>
    refine hcheck (.bind (Q := fun _ => (whole k).At) Workers.refl (update_passes (fun d h => ?_) fun _ _ => trivial)
      fun _ => Prog.Outline.mono (P := (whole k).At) ?_ (fun _ h => h) (fun _ _ h => h) fun _ _ =>
        whole_taken hfits fun _ => trivial)
    · exact put_graph hfits h.1 fun node => ⟨rfl, rfl, rfl⟩
    · refine .bind Workers.refl (keeps_passes (hold_persist (fun _ h => h) _ _)) fun _ => ?_
      exact .bind Workers.refl (keeps_passes (hold_failing _ _)) fun _ => .raise (whole k).kept fun _ h => h
  | accepted =>
    exact hcheck (.bind Workers.refl (install_proof_passes hfits) fun _ => .ret (whole k).kept fun _ h => h)

end Accept

end LeanFlow.Transactions
