import LeanFlow.Transactions.Undo

/-! Every step of an acceptance leaves files that a resume can decide. -/
namespace LeanFlow.Transactions
open General Goals Source Scene

variable {s : Scene} {g : Stage} {w : World} {journal : ProofJournal}
variable {fails : Step → Bool} {shown : Node → NodeStatus}

/-! ### Steps that keep a stage -/

theorem leads_record_change (hg : g.Firm s.Recoverable) (fails : Bool) (document : SourceDocument) (agent_id : String) :
    Leads s.Recoverable (At g) (record_change fails document agent_id) (fun _ => At g) (At g) := by
  refine .bind Publications.refl (leads_failing hg _ _) fun _ => leads_get hg fun w hw => ?_
  refine .bind (Q := fun _ => At g) Publications.refl (.ofExcept hg.kept (fun _ _ _ h => h) fun _ _ _ h => h) fun prior => ?_
  refine leads_changes hg fun changes h => ?_
  cases prior with
  | none => exact List.forall_mem_append.mpr ⟨h, List.forall_mem_singleton.mpr rfl⟩
  | some i => exact named_modify h i fun _ _ => rfl

theorem leads_stage_change (hg : g.Firm s.Recoverable) (path : String) :
    Leads s.Recoverable (At g) (stage_change path) (fun _ => At g) (At g) := by
  refine leads_get hg fun w hw => ?_
  refine .bind (Q := fun _ => At g) Publications.refl (.ofExcept hg.kept (fun _ _ _ h => h) fun _ _ _ h => h) fun prior => ?_
  cases prior with
  | none => exact .raise hg.kept fun _ h => h
  | some i =>
    refine leads_changes hg fun changes h => ?_
    exact named_modify h i fun change hchange => hchange

theorem leads_assert_sources (hg : g.Firm s.Recoverable) : Leads s.Recoverable (At g) (assert_sources s.C) (fun _ => At g) (At g) :=
  leads_get hg fun _ _ => .ofExcept hg.kept (fun _ _ _ h => h) fun _ _ _ h => h

theorem leads_check_unchanged (hg : g.Firm s.Recoverable) (before : SourceDocument) :
    Leads s.Recoverable (At g) (check_unchanged s.C s.sub before) (fun _ => At g) (At g) := by
  refine leads_get hg fun w hw => ?_
  cases w.disk.files.get? s.sub.node.file with
  | none => exact .raise hg.kept fun _ h => h
  | some content =>
    refine .bind (Q := fun _ => At g) Publications.refl ((leads_checked hg _).mono (fun _ h => h) (fun _ _ h => h.1) fun _ _ h => h)
      fun text => ?_
    exact .ite (fun _ => .raise hg.kept fun _ h => h) fun _ => .ret hg.kept fun _ h => h

theorem leads_leave_artifact (hg : g.Firm s.Recoverable) (hspares : s.Spares g) (step : Step) (artifact : Option Text) :
    Leads s.Recoverable (At g) (leave_artifact fails s.sub step artifact) (fun _ => At g) (At g) := by
  refine .bind Publications.refl (leads_failing hg _ _) fun _ => ?_
  cases artifact with
  | none => exact .ret hg.kept fun _ h => h
  | some artifact => exact leads_write_artifact hg hspares artifact

theorem leads_compile_source (hg : g.Open s.Recoverable) (hspares : s.Spares g) :
    Leads s.Recoverable (At g) (compile_source fails shown s.sub) (fun _ => At g) (At g) := by
  refine .bind Publications.refl (leads_progress_call hg _ _ (leads_leave_artifact hg.firm hspares _ _)) fun _ => .ite (fun _ => ?_) fun _ => .ret hg.firm.kept fun _ h => h
  exact .bind Publications.refl (leads_failing hg.firm _ _) fun _ => .raise hg.firm.kept fun _ h => h

theorem leads_integrate_artifact (hg : g.Open s.Recoverable) (hspares : s.Spares g) :
    Leads s.Recoverable (At g) (integrate_artifact fails shown s.sub) (fun _ => At g) (At g) := by
  unfold integrate_artifact
  cases s.sub.installed with
  | none => exact leads_compile_source hg hspares
  | some artifact =>
    refine .bind Publications.refl (leads_progress_call hg _ _ (leads_leave_artifact hg.firm hspares _ _)) fun _ => .ite (fun _ => ?_)
      fun _ => .ret hg.firm.kept fun _ h => h
    exact .bind Publications.refl (leads_failing hg.firm _ _) fun _ => leads_compile_source hg hspares

theorem idle_open (documents : Documents → Prop) : (s.idle documents).Open s.Recoverable := ⟨idle_firm _, rfl, rfl, fun _ h => h⟩

theorem installed_open (hjournal : s.Journaled journal) : (s.installed journal).Open s.Recoverable :=
  ⟨installed_firm hjournal, rfl, rfl, fun _ h => h⟩

/-- Persisting the documents and the graph before. -/
theorem idle_commit (w : World) (h : At (s.idle (Same · s.base)).lock w) (hstored : w.stored = some w.documents) :
    s.Unproved ⟨w.dag, w.stored, w.state.source_transaction⟩ :=
  ⟨h.dag, ⟨w.documents, hstored, h.documents⟩, h.live.transaction⟩

/-! ### Where an exception leaves an acceptance -/

/-- The journal is there until its transaction is, and what is in memory fits either. -/
inductive Scene.Stopped (s : Scene) (w : World) : Prop where
  | idle (h : At (s.idle (Same · s.base)) w)
  | failed {journal : ProofJournal} (hjournal : s.Journaled journal) (h : At (s.failed journal) w)
  | late {journal : ProofJournal} (hjournal : s.Journaled journal) (h : At (s.proved journal fun p => s.Torn p ∨ s.Proved p) w)
  | committed {journal : ProofJournal} (hjournal : s.Journaled journal) (h : At (s.committed journal) w)
  | closed (h : At s.closed w)

/-- The document has the proof, and no journal says so. -/
def Scene.Unjournaled (s : Scene) (fails : Step → Bool) : Prop :=
  fails .journal = true ∨ ∀ text, s.after.render s.C [] ≠ .ok text

def Scene.Stops (s : Scene) (fails : Step → Bool) (w : World) : Prop := s.Stopped w ∨ s.Unjournaled fails

theorem beside_of_changed {documents : Documents} (h : s.Changed documents) : s.Beside documents :=
  fun path hne => by rw [h path, Dict.get?_set_ne _ _ hne]

theorem At.failed_journaled (h : At (s.journaled journal) w) : At (s.failed journal) w :=
  h.weaken (fun _ _ h => h) (fun _ h => h.opened) (fun _ h => h.opened) (fun _ => beside_of_changed)
    (fun _ h => ⟨h.shapes, h.roots, fun _ _ => trivial⟩) (fun h => h) rfl fun _ _ => trivial

theorem At.failed_installed (h : At (s.installed journal) w) : At (s.failed journal) w :=
  h.weaken (fun _ _ h => h.weaken fun _ => Or.inr) (fun _ h => h.opened) (fun _ h => h.opened) (fun _ => beside_of_changed)
    (fun _ h => ⟨h.shapes, h.roots, fun _ _ => trivial⟩) (fun h => h) rfl fun _ _ => trivial

theorem At.failed_claimed (h : At (s.claimed journal) w) : At (s.failed journal) w :=
  h.weaken (fun _ _ h => h.weaken fun _ => Or.inr) (fun _ h => h.opened) (fun _ h => h.opened) (fun _ => beside_of_changed)
    (fun _ h => ⟨h.shapes, h.roots, fun _ _ => trivial⟩) (fun h => h) rfl fun _ _ => trivial

/-! ### Integration -/

/-- Everything between the journal and the commit. -/
theorem integrate_leads (hs : s.Valid) (hjournal : s.Journaled journal)
    (hafter : ∀ text, s.after.render s.C [] = .ok text → text = s.afterText) :
    Leads s.Recoverable (At (s.journaled journal)) (integrate s.C fails shown s.sub s.before s.after)
      (fun _ => At (s.installed journal)) (At (s.failed journal)) := by
  have hg := journaled_firm hjournal
  have hg' := installed_open hjournal
  have hback {α : Type} {x : Controller α} {Q : α → World → Prop} (hx : Leads s.Recoverable (At (s.journaled journal)) x Q (At (s.journaled journal))) :
      Leads s.Recoverable (At (s.journaled journal)) x Q (At (s.failed journal)) :=
    hx.mono (fun _ h => h) (fun _ _ h => h) fun _ _ h => h.failed_journaled
  refine .bind Publications.refl (hback (leads_failing hg _ _)) fun _ => ?_
  refine .bind Publications.refl (hback (leads_check_unchanged hg _)) fun _ => ?_
  refine .bind Publications.refl (hback (leads_checked hg _)) fun text => ?_
  rintro w ⟨hw, hrender⟩
  obtain rfl := hafter text hrender
  revert w
  show Leads s.Recoverable (At (s.journaled journal)) _ _ _
  refine .bind Publications.refl (hback (leads_failing hg _ _)) fun _ => ?_
  refine .bind (Q := fun _ => At (s.installed journal)) Publications.refl
    (.modify hg.kept hg'.firm.kept fun w h => { h with files := h.files.write rfl }) fun _ => ?_
  refine Prog.Outline.mono (P := At (s.installed journal)) ?_ (fun _ h => h) (fun _ _ h => h) fun _ w h => At.failed_installed h
  refine .bind Publications.refl (leads_record_change hg'.firm _ _ _) fun _ => ?_
  refine .bind Publications.refl (leads_stage_change hg'.firm _) fun _ => ?_
  exact .bind Publications.refl (leads_integrate_artifact hg' (spares_sources hs rfl)) fun _ => leads_assert_sources hg'.firm

/-- A failed integration rolls back, and persists the candidate. -/
theorem pause_leads (hs : s.Valid) (hjournal : s.Journaled journal) (error : Raised) {Q : Unit → World → Prop} :
    Leads s.Recoverable (At (s.failed journal)) (pause s.C s.sha256 fails shown s.sub s.before error) Q s.Stopped := by
  have hpath : s.before.path = s.file := hs.paths _ _ hs.known
  have hfailed := failed_firm hjournal
  have hidle := idle_open (s := s) (Same · s.base)
  refine .bind (Q := fun _ => At (s.failed journal)) Publications.refl
    (.modify hfailed.kept hfailed.kept fun w h => ?_) fun _ => ?_
  · unfold World.resetReplacements
    rw [hpath]
    cases hdocument : w.documents.get? s.file with
    | none => exact h
    | some document =>
      exact { h with documents := fun path hne => by rw [Dict.get?_set_ne _ _ hne]; exact h.documents path hne }
  refine .bind (Q := fun _ => At (s.idle (Same · s.base))) Publications.refl (.handle Publications.refl
    (recover_proof_outline (Φ := True) hs hjournal fun _ _ => trivial) fun e => ?_) fun _ => ?_
  · refine Prog.Outline.mono (P := At (s.failed journal)) (E := fun _ => s.Stopped) ?_ (fun _ h => h.2) (fun _ _ h => h) fun _ _ h => h
    cases e <;> exact .raise hfailed.kept fun _ h => .failed hjournal h
  refine .bind (Q := fun _ => At (s.idle (Same · s.base))) Publications.refl
    (leads_modify hidle.firm hidle.firm fun w h => ?_) fun _ => ?_
  · exact h.assign rfl (fun _ => rfl) fun _ => nofun
  refine .bind (Q := fun _ => At (s.idle (Same · s.base))) Publications.refl
    ((leads_persist hidle idle_commit _).mono (fun _ h => h) (fun _ _ h => h) fun _ _ h => .idle h) fun _ => ?_
  exact .raise hidle.firm.kept fun _ h => .idle h

/-! ### The journal and the commit -/

theorem begin_proof_leads (hs : s.Valid) (fails : Bool) :
    Leads s.Recoverable (At (s.idle s.Changed)) (begin_proof s.C s.sha256 fails s.sub.transaction_id s.sub.node s.sub.candidate s.before s.afterText)
      (fun journal w => s.Journaled journal ∧ At (s.journaled journal) w) fun _ => fails = true := by
  have hidle := idle_firm (s := s) s.Changed
  refine leads_get hidle fun w hw => ?_
  obtain ⟨prior, hprior⟩ := find_change_named (hw.live_named rfl) s.sub.node.file
  unfold checked
  rw [hprior, hs.renders]
  refine .bind (Q := fun found w => At (s.idle s.Changed) w ∧ found = prior) Publications.refl
    (.ret hidle.kept fun _ h => ⟨h, rfl⟩) fun found => ?_
  rintro w' ⟨hw', rfl⟩
  revert w'
  show Leads s.Recoverable (At (s.idle s.Changed)) _ _ _
  refine .bind (Q := fun text w => At (s.idle s.Changed) w ∧ text = s.beforeText) Publications.refl
    (.ret hidle.kept fun _ h => ⟨h, rfl⟩) fun text => ?_
  rintro w' ⟨hw', rfl⟩
  revert w'
  show Leads s.Recoverable (At (s.idle s.Changed)) _ _ _
  refine .bind Publications.refl (failing_outline hidle.kept fun _ hfails _ => hfails) fun _ => ?_
  have hjournal : s.Journaled {
      id := s.sub.transaction_id
      path := s.sub.node.file
      node_id := s.sub.node.id
      candidate := s.sub.candidate
      before_document := s.before
      before_change := found.bind (w.state.changes[·]?)
      before_sha256 := s.sha256 s.beforeText
      after_sha256 := s.sha256 s.afterText } := by
    refine ⟨rfl, rfl, rfl, rfl, rfl, fun change hchange => ?_⟩
    obtain ⟨i, -, hi⟩ := Option.bind_eq_some_iff.mp hchange
    exact hw.live_named rfl change (List.mem_of_getElem? hi)
  have hfirm := journaled_firm hjournal
  refine .bind (Q := fun _ => At (s.journaled _)) Publications.refl
    (.modify hidle.kept hfirm.kept fun w h => ?_) fun _ => .ret hfirm.kept fun w h => ⟨hjournal, h⟩
  exact { h with files := { h.files.weaken fun _ => Or.inl with journal := rfl } }

/-- The node is proved in memory. -/
theorem At.prove (h : At (s.installed journal) w) {f : Node → Node} (hshape : ∀ node, (f node).shape = node.shape)
    (hstatus : ∀ node, (f node).status = .proved) : At (s.claimed journal) (w.updateNode s.sub.node.id f) :=
  { h with dag := h.dag.update hshape fun node _ => hstatus node }

/-- The stage in which the id of the transaction is live, and the graph may be. -/
abbrev Scene.late (s : Scene) (journal : ProofJournal) : Stage := s.proved journal fun p => s.Torn p ∨ s.Proved p

/-- Persisting the proof commits it. -/
theorem leads_persist_late (hs : s.Valid) (hjournal : s.Journaled journal) (hrender : s.after.render s.C [] = .ok s.afterText)
    (fails : StorePart → Bool) :
    Leads s.Recoverable (At (s.late journal)) (persist fails shown) (fun _ => At (s.committed journal)) (At (s.late journal)) := by
  have hlate : (s.late journal).Firm s.Recoverable := proved_firm hs hjournal fun _ => Or.inr
  refine (@persist_outline s.Recoverable (s.late journal) True s.Proved s.Proved _ hlate (committed_firm hjournal) hlate rfl rfl
    (fun w h hstored => ?_) (fun _ h => h) (fun _ => Or.inr) (fun _ h => h) fails (fun _ _ => trivial) shown).mono (fun _ h => h)
    (fun _ _ h => h) fun _ _ h => h.2
  exact ⟨h.dag, ⟨w.documents, hstored, h.documents⟩, h.live.elim And.right Proved.transaction, hrender⟩

/-- The proof is published, and the journal is dropped. -/
theorem commit_proof_leads (hs : s.Valid) (hjournal : s.Journaled journal)
    (hafter : ∀ text, s.after.render s.C [] = .ok text → text = s.afterText) :
    Leads s.Recoverable (At (s.installed journal)) (commit_proof s.C s.sha256 fails shown s.sub s.after)
      (fun _ => At s.closed) s.Stopped := by
  have hinstalled := installed_firm hjournal
  have hclaimed := claimed_firm hjournal
  have hlate : (s.late journal).Firm s.Recoverable := proved_firm hs hjournal fun _ => Or.inr
  have hcommitted := committed_firm hjournal
  have hclosed := @closed_firm s
  refine .bind Publications.refl ((leads_checked hinstalled _).mono (fun _ h => h) (fun _ _ h => h)
    fun _ _ h => .failed hjournal h.failed_installed) fun text => ?_
  rintro w ⟨hw, hrender⟩
  obtain rfl := hafter text hrender
  revert w
  show Leads s.Recoverable (At (s.installed journal)) _ _ _
  refine .bind (Q := fun _ => At (s.claimed journal)) Publications.refl
    (.modify hinstalled.kept hclaimed.kept fun w h => ?_) fun _ => ?_
  · exact h.prove (fun _ => rfl) fun _ => rfl
  refine .bind Publications.refl ((leads_record_change hclaimed _ _ _).mono (fun _ h => h) (fun _ _ h => h)
    fun _ _ h => .failed hjournal h.failed_claimed) fun _ => ?_
  refine leads_get hclaimed fun w hw => ?_
  refine .bind (Q := fun _ => At (s.claimed journal)) Publications.refl
    (.ofExcept hclaimed.kept (fun _ _ _ h => h) fun _ _ _ h => .failed hjournal h.failed_claimed) fun _ => ?_
  refine .bind (Q := fun _ => At (s.late journal)) Publications.refl (.modify hclaimed.kept hlate.kept fun w h => ?_) fun _ => ?_
  · exact { h with
      saved := Or.inl h.saved
      live := Or.inl ⟨h.live.dag, rfl⟩
      publishing := fun p hp => ⟨Or.inl (h.publishing p hp).1, (h.publishing p hp).2⟩ }
  refine .bind (Q := fun _ => At (s.committed journal)) Publications.refl ((leads_persist_late hs hjournal hrender _).mono (fun _ h => h)
    (fun _ _ h => h) fun _ _ h => .late hjournal h) fun _ => ?_
  refine .bind Publications.refl ((leads_failing hcommitted _ _).mono (fun _ h => h) (fun _ _ h => h) fun _ _ h => .committed hjournal h) fun _ => ?_
  refine .bind (Q := fun _ => At s.closed) Publications.refl
    (.modify hcommitted.kept hclosed.kept fun w h => { h with files := { h.files with journal := rfl } }) fun _ => ?_
  exact (leads_failing hclosed _ _).mono (fun _ h => h) (fun _ _ h => h) fun _ _ h => .closed h

/-! ### The acceptance -/

theorem leads_find_document (hs : s.Valid) {Q : SourceDocument → World → Prop} {E : World → Prop}
    (hQ : ∀ w, At (s.idle (Same · s.base)) w → Q s.before w) :
    Leads s.Recoverable (At (s.idle (Same · s.base))) (find_document s.sub.node.file) Q E := by
  have hidle := idle_firm (s := s) (Same · s.base)
  refine leads_get hidle fun w hw => ?_
  have hknown : w.documents.get? s.sub.node.file = some s.before := (hw.documents s.file).trans hs.known
  rw [hknown]
  exact .ret hidle.kept hQ

theorem install_proof_leads (hs : s.Valid) (hafter : ∀ text, s.after.render s.C [] = .ok text → text = s.afterText) :
    Leads s.Recoverable (At (s.idle (Same · s.base))) (install_proof s.C s.sha256 fails shown s.sub) (fun _ => At s.closed) (s.Stops fails) := by
  have hidle := idle_firm (s := s) (Same · s.base)
  have hchanged := idle_firm (s := s) s.Changed
  refine .bind Publications.refl ((leads_failing hidle _ _).mono (fun _ h => h) (fun _ _ h => h) fun _ _ h => Or.inl (.idle h)) fun _ => ?_
  refine .bind Publications.refl ((leads_assert_sources hidle).mono (fun _ h => h) (fun _ _ h => h) fun _ _ h => Or.inl (.idle h)) fun _ => ?_
  refine .bind (Q := fun before w => At (s.idle (Same · s.base)) w ∧ before = s.before) Publications.refl
    (leads_find_document hs fun _ h => ⟨h, rfl⟩) fun before => ?_
  rintro w ⟨hw, rfl⟩
  revert w
  show Leads s.Recoverable (At (s.idle (Same · s.base))) _ _ _
  refine .bind (Q := fun _ => At (s.idle s.Changed)) Publications.refl (.modify hidle.kept hchanged.kept fun w h => ?_) fun _ => ?_
  · refine { h with documents := fun path => ?_ }
    show (w.documents.set s.file s.after).get? path = _
    rw [Dict.get?_set, Dict.get?_set, h.documents path]
  refine .bind (Q := fun text w => At (s.idle s.Changed) w ∧ s.after.render s.C [] = .ok text) Publications.refl
    (.ofExcept hchanged.kept (fun text hrender w h => ⟨h, ?_⟩) fun e hrender _ _ => Or.inr (Or.inr fun text htext => ?_)) fun text => ?_
  · cases hresult : s.after.render s.C [] with
    | error e =>
      rw [show proved_document s.sub s.before = s.after from rfl, hresult] at hrender
      cases hrender
    | ok text' =>
      rw [show proved_document s.sub s.before = s.after from rfl, hresult] at hrender
      exact congrArg _ (Except.ok.inj hrender)
  · rw [show proved_document s.sub s.before = s.after from rfl, htext] at hrender
    cases hrender
  rintro w ⟨hw, hrender⟩
  obtain rfl := hafter text hrender
  refine Prog.Outline.bind Publications.refl ((begin_proof_leads hs _).mono (fun _ h => h) (fun _ _ h => h)
    fun _ _ hfails => Or.inr (Or.inl hfails)) (fun journal => ?_) w hw
  rintro w ⟨hjournal, hw⟩
  refine Prog.Outline.bind (Q := fun _ => At (s.installed journal)) Publications.refl ((Prog.Outline.handle Publications.refl
    (integrate_leads hs hjournal hafter) fun e => pause_leads hs hjournal e).mono (fun _ h => h) (fun _ _ h => h) fun _ _ h => Or.inl h)
    (fun _ => ?_) w hw
  exact (commit_proof_leads hs hjournal hafter).mono (fun _ h => h) (fun _ _ h => h) fun _ _ h => Or.inl h

/-- What an acceptance has returned is in the files. -/
def Scene.answer (s : Scene) : Bool → Stage
  | true => s.closed
  | false => s.idle (Same · s.base)

/-- **In an acceptance every crash leaves files that a resume can decide.** -/
theorem accept_locked_leads (hs : s.Valid) (hafter : ∀ text, s.after.render s.C [] = .ok text → text = s.afterText) :
    Leads s.Recoverable (At (s.idle (Same · s.base))) (accept_locked s.C s.sha256 fails shown s.sub) (fun accepted => At (s.answer accepted))
      (s.Stops fails) := by
  have hidle := idle_open (s := s) (Same · s.base)
  have hforget {α : Type} {x : Controller α} (hx : Leads s.Recoverable (At (s.idle (Same · s.base))) x (fun _ => At (s.idle (Same · s.base)))
      (At (s.idle (Same · s.base)))) : Leads s.Recoverable (At (s.idle (Same · s.base))) x (fun _ => At (s.idle (Same · s.base))) (s.Stops fails) :=
    hx.mono (fun _ h => h) (fun _ _ h => h) fun _ _ h => Or.inl (.idle h)
  have hnote {f : Node → Node} (hshape : ∀ node, (f node).shape = node.shape)
      (hstatus : ∀ node, node.status ≠ .proved → (f node).status ≠ .proved) :
      Leads s.Recoverable (At (s.idle (Same · s.base))) (note_node s.sub f) (fun _ => At (s.idle (Same · s.base))) (s.Stops fails) :=
    leads_modify hidle.firm hidle.firm fun _ h => h.node (h.dag.update hshape hstatus)
  have hrejected : Leads s.Recoverable (At (s.idle (Same · s.base))) (.ret false) (fun accepted => At (s.answer accepted)) (s.Stops fails) :=
    .ret hidle.firm.kept fun _ h => h
  refine .bind Publications.refl (hforget (leads_failing hidle.firm _ _)) fun _ => ?_
  refine .bind Publications.refl (hforget (leads_assert_sources hidle.firm)) fun _ => ?_
  refine .bind (Q := fun _ => At (s.idle (Same · s.base))) Publications.refl (leads_find_document hs fun _ h => h) fun document => ?_
  have hcheck {x : Controller Bool}
      (hx : Leads s.Recoverable (At (s.idle (Same · s.base))) x (fun accepted => At (s.answer accepted)) (s.Stops fails)) :
      Leads s.Recoverable (At (s.idle (Same · s.base))) (do
        let _ ← checked (declaration_source s.C (staged_document s.sub document) s.sub.node (some s.sub.candidate))
        progress_call shown (fails .check_begin) (fails .check_end) (failing (fails .check) .os_error)
        failing (fails .check_event) .os_error
        x) (fun accepted => At (s.answer accepted)) (s.Stops fails) := by
    refine .bind Publications.refl ((leads_checked hidle.firm _).mono (fun _ h => h) (fun _ _ h => h.1) fun _ _ h => Or.inl (.idle h)) fun text => ?_
    refine .bind Publications.refl (hforget (leads_progress_call hidle _ _ (leads_failing hidle.firm _ _))) fun _ => ?_
    exact .bind Publications.refl (hforget (leads_failing hidle.firm _ _)) fun _ => hx
  cases hverdict : s.sub.verdict with
  | imports_rejected notes => exact .bind Publications.refl (hnote (fun _ => rfl) fun _ h => h) fun _ => hrejected
  | rejected notes => exact hcheck (.bind Publications.refl (hnote (fun _ => rfl) fun _ h => h) fun _ => hrejected)
  | inputs_changed => exact hcheck (.bind Publications.refl (hnote (fun _ => rfl) fun _ h => h) fun _ => hrejected)
  | unavailable message =>
    refine hcheck (.bind Publications.refl (hnote (fun _ => rfl) fun _ _ => nofun) fun _ => ?_)
    refine .bind Publications.refl (hforget (leads_persist hidle idle_commit _)) fun _ => ?_
    exact .bind Publications.refl (hforget (leads_failing hidle.firm _ _)) fun _ => .raise hidle.firm.kept fun _ h => Or.inl (.idle h)
  | accepted =>
    exact hcheck (.bind Publications.refl (install_proof_leads hs hafter) fun _ => .ret (@closed_firm s).kept fun _ h => h)

end LeanFlow.Transactions
