import LeanFlow.Transactions.Crashes
import LeanFlow.Transactions.Reverted

/-! A crash in a planning transaction, and every resume after it. -/
namespace LeanFlow.Transactions
open General Goals Source Plan

variable {p : Plan} {journal : MaterializationJournal} {shown : Node → NodeStatus} {disk : Disk} {documents : Documents}

/-! ### The records -/

/-- The records of the changes and the retired nodes are those before the transaction. -/
def Plan.Records (p : Plan) (w : World) : Prop :=
  w.state.changes = p.start.state.changes ∧ w.state.retired_nodes = p.start.state.retired_nodes

theorem stable_records : Prog.Stable Publications p.Records :=
  stable_unpublished fun w w' h hsame => by rw [Plan.Records, hsame.state]; exact h

theorem modify_records {f : World → World} (hf : ∀ w, (f w).state.changes = w.state.changes ∧ (f w).state.retired_nodes = w.state.retired_nodes) :
    Prog.Keeps Publications p.Records (Prog.modify f : Controller Unit) :=
  .modify stable_records fun w h => ⟨(hf w).1.trans h.1, (hf w).2.trans h.2⟩

theorem failing_records (fails : Bool) (e : Raised) : Prog.Keeps Publications p.Records (failing fails e) :=
  .ite (.raise stable_records e) (.ret stable_records _)

theorem with_lock_records {x : Controller Unit} (hx : Prog.Keeps Publications p.Records x) : Prog.Keeps Publications p.Records (with_lock x) := by
  have hrelease : Prog.Keeps Publications p.Records (Prog.modify World.release : Controller Unit) := modify_records fun _ => ⟨rfl, rfl⟩
  refine .bind Publications.refl (modify_records fun w => ?_) fun _ => ?_
  · unfold World.acquire
    split <;> exact ⟨rfl, rfl⟩
  · refine .bind Publications.refl (.handle Publications.refl hx fun e => ?_) fun _ => hrelease
    exact .bind Publications.refl hrelease fun _ => .raise stable_records e

theorem persist_records (fails : StorePart → Bool) : Prog.Keeps Publications p.Records (persist fails shown) := by
  have hcheckpoint (w : World) : w.checkpoint.state = w.state := by
    unfold World.checkpoint
    split <;> rfl
  have hstore : Prog.Keeps Publications p.Records (store_documents fails) := by
    refine .bind Publications.refl (.get stable_records) fun w => .ite ?_ (.ret stable_records _)
    refine .bind Publications.refl (failing_records _ _) fun _ => .bind Publications.refl (modify_records fun w => ?_) fun _ => ?_
    · rw [hcheckpoint]
      exact ⟨rfl, rfl⟩
    · exact .bind Publications.refl (failing_records _ _) fun _ => modify_records fun _ => ⟨rfl, rfl⟩
  refine with_lock_records (.bind Publications.refl ?_ fun _ => ?_)
  · refine .bind Publications.refl hstore fun _ => .bind Publications.refl (modify_records fun _ => ⟨rfl, rfl⟩) fun _ => ?_
    exact .bind Publications.refl (failing_records _ _) fun _ => failing_records _ _
  · exact .bind Publications.refl (failing_records _ _) fun _ => modify_records fun _ => ⟨rfl, rfl⟩

theorem ends_records {x : Controller Unit} (hx : Prog.Keeps Publications p.Records x) :
    Prog.Triple Publications p.Records x (fun _ => p.Records) fun _ _ => True :=
  hx.triple.mono (fun _ h => h) (fun _ _ h => h) fun _ _ _ => trivial

/-- An undo ends with the records before. -/
theorem undo_records (hopened : p.Opened journal) (artifacts : List (String × Option Text)) (observed : World) :
    Prog.Triple Publications (fun _ => True) (undo_materialization (fun _ => false) shown journal artifacts observed)
      (fun _ => p.Records) fun _ _ => True := by
  refine .bind Publications.refl (.any _) fun _ => .bind Publications.refl (.any _) fun _ => ?_
  refine .bind (Q := fun _ => p.Records) Publications.refl (.modify (Prog.stable_const True) stable_records fun w _ => ?_) fun _ =>
    ends_records (persist_records _)
  exact ⟨hopened.changes, hopened.retired⟩

theorem recover_records (hopened : p.Opened journal) (C : CharClass) (sha256 : Text → String) :
    Prog.Triple Publications (fun w => w.disk.journal = some (.materialization journal) ∧ w.state.source_transaction ≠ some p.id)
      (do
        recover_proof C sha256 (fun _ => false) shown
        assert_sources C) (fun _ => p.Records) fun _ _ => True := by
  have hstable : Prog.Stable Publications fun w : World =>
      w.disk.journal = some (.materialization journal) ∧ w.state.source_transaction ≠ some p.id :=
    stable_unpublished fun w w' h hsame => ⟨hsame.journal.trans h.1, by rw [hsame.state]; exact h.2⟩
  refine .bind (Q := fun _ => p.Records) Publications.refl ?_ fun _ =>
    ends_records (.bind Publications.refl (.get stable_records) fun _ => .ofExcept stable_records _)
  refine .bind (Q := fun w w' => w.disk.journal = some (.materialization journal) ∧ w'.state.source_transaction ≠ some p.id)
    Publications.refl (.get hstable fun w w' h hpublications => ⟨h.1, (hstable w w' h hpublications).2⟩) fun w => ?_
  rintro w' ⟨hjournal, hopen⟩
  rw [hjournal]
  have hstable' : Prog.Stable Publications fun w : World => w.state.source_transaction ≠ some p.id :=
    stable_unpublished fun w w' h hsame => by rw [hsame.state]; exact h
  refine Prog.Triple.bind (P := fun w : World => w.state.source_transaction ≠ some p.id) (Q := fun w _ => w.state.source_transaction ≠ some p.id)
    Publications.refl (.get hstable' fun w _ h _ => h) (fun w => ?_) w' hopen
  rintro w' hopen
  rw [decide_eq_false (hopened.id.symm ▸ hopen)]
  refine Prog.Triple.bind (P := fun _ => True) Publications.refl (.any _) (fun artifacts => ?_) w' trivial
  refine .bind Publications.refl (.any _) fun observed => .bind Publications.refl (.any _) fun _ => ?_
  refine .bind (Q := fun _ => p.Records) Publications.refl (undo_records hopened artifacts observed) fun _ => ?_
  exact .bind Publications.refl (ends_records (failing_records _ _)) fun _ => ends_records (modify_records fun _ => ⟨rfl, rfl⟩)

/-! ### Resumes -/

namespace Plan
variable (p : Plan)

/-- Everything is as it was before the transaction. -/
structure Back (w : World) : Prop where
  journal : w.disk.journal = none
  files : p.Undone w.disk.files
  documents : ∀ path, w.documents.get? path = p.start.documents.get? path
  current : p.Current p.start.documents w.disk.files
  dag : p.Earlier w.dag
  saved : p.Earlier w.disk.state_json.dag
  transaction : w.disk.state_json.source_transaction ≠ some p.id

/-- So are the graph and the records in memory, and the graph in the files. -/
structure Reset (w : World) : Prop where
  dag : w.dag = p.start.dag
  documents : w.documents = p.start.documents
  records : p.Records w

/-- The transaction is in the files and in the state. -/
structure Done (w : World) : Prop where
  journal : w.disk.journal = none
  files : p.Finished w.disk.files
  documents : w.documents = p.documents
  dag : w.dag = p.dag
  saved : p.After w.disk.state_json.point

end Plan

theorem current_undone (hp : p.Valid) {files : Dict String Text} (h : p.Undone files) : p.Current p.start.documents files := by
  intro path document hdocument
  obtain ⟨text, hrender, hfile⟩ := hp.current path document hdocument
  refine ⟨text, hrender, ?_⟩
  rcases h document.path with hsame | ⟨-, file, -, -, heq⟩
  · exact hsame.trans hfile
  · exact absurd heq (hp.apart_sources path document hdocument file)

theorem sources_current {w : World} (h : p.Current w.documents w.disk.files) : w.sources p.C = .ok () := (sources_iff p.C).mpr h

theorem current_same {files : Dict String Text} (h : p.Current p.start.documents files)
    (hsame : ∀ path, documents.get? path = p.start.documents.get? path) : p.Current documents files :=
  fun path document hdocument => h path document ((hsame path).symm.trans hdocument)

theorem gone_back (hp : p.Valid) {documents : Documents → Prop} {dag : Dag → Prop} {w : World} (h : At (p.gone documents dag) w)
    (hdocuments : ∀ d, documents d → ∀ path, d.get? path = p.start.documents.get? path) (hdag : ∀ d, dag d → p.Earlier d) : p.Back w :=
  ⟨h.files.2, h.files.1, hdocuments _ h.documents, current_undone hp h.files.1, hdag _ h.dag, h.saved.dag, h.saved.transaction⟩

/-- Nothing has begun, or all is undone. -/
theorem resume_gone (hp : p.Valid) (h : At (p.gone p.Kept p.Earlier) (disk.restored documents)) :
    Prog.Spec Publications (OnDisk p.Undoable) (fun _ => p.Back) (fun _ _ => False) (do
      recover_proof p.C p.sha256 (fun _ => false) shown
      assert_sources p.C) (disk.restored documents) := by
  have hg := @gone_firm p p.Kept p.Earlier
  refine Prog.Outline.bind (Q := fun _ => At (p.gone p.Kept p.Earlier)) Publications.refl (leads_get hg fun w hw => ?_) (fun _ => ?_) _ h
  · rw [hw.files.2]
    exact .ret hg.kept fun _ h => h
  · refine (assert_sources_ends hg fun w h => ?_).mono (fun _ h => h) (fun _ w h => gone_back hp h (fun _ h => h) fun _ h => h)
      fun _ _ h => h
    exact sources_current (current_same (current_undone hp h.files.1) h.documents)

/-- A journal leads back. -/
theorem resume_covered (hp : p.Valid) (hopened : p.Opened journal) (h : At (p.covered journal journal) (disk.restored documents)) :
    Prog.Spec Publications (OnDisk p.Undoable) (fun _ w => p.Back w ∧ p.Reset w) (fun _ _ => False) (do
      recover_proof p.C p.sha256 (fun _ => false) shown
      assert_sources p.C) (disk.restored documents) := by
  have hg := @covered_firm p journal journal
  have hgone := @gone_firm p (· = p.start.documents) (· = p.start.dag)
  have hreverts : Prog.Spec Publications (OnDisk p.Undoable) (fun _ => At (p.gone (· = p.start.documents) (· = p.start.dag)))
      (fun _ _ => False) (do
        recover_proof p.C p.sha256 (fun _ => false) shown
        assert_sources p.C) (disk.restored documents) := by
    refine Prog.Outline.bind (Q := fun _ => At (p.gone (· = p.start.documents) (· = p.start.dag))) Publications.refl
      (leads_get hg fun w hw => ?_) (fun _ => ?_) _ h
    · rw [hw.files.2]
      exact (recover_reverts hp hopened).mono (fun _ h => h) (fun _ _ h => h) fun _ _ ⟨⟨_, hfails⟩, _⟩ => absurd hfails Bool.false_ne_true
    · exact assert_sources_ends hgone fun w h => sources_current (h.documents ▸ current_undone hp h.files.1)
  refine (hreverts.and (recover_records hopened p.C p.sha256 _ ⟨h.files.2, h.live.transaction⟩)).mono (fun _ w h => ⟨gone_back hp h.1 ?_ fun _ => Or.inl, h.1.dag, h.1.documents, h.2⟩)
    fun _ _ h => h.1
  rintro _ rfl path
  rfl

/-- **A resume before the commit** undoes the transaction. -/
theorem restore_undoes (hp : p.Valid) (h : p.Undoable disk) (shown : Node → NodeStatus) :
    Prog.Spec Eq (OnDisk p.Undoable) (fun _ w => p.Back w ∧ (disk.journal.isSome = true → p.Reset w)) (fun _ _ => False)
      (restore p.C p.sha256 p.max_nodes shown) disk.resume := by
  obtain ⟨documents, hloads, hkept⟩ := h.saved.loads
  refine restore_spec hloads h.written h ?_
  rcases h.files with ⟨hjournal, hundone⟩ | ⟨journal, hjournal, hcovers⟩
  · have hat : At (p.gone p.Kept p.Earlier) (disk.restored documents) :=
      at_restored ⟨hundone, hjournal⟩ h.saved h.saved h.named h.written hkept h.saved.dag rfl trivial
    refine (resume_gone hp hat).mono (fun _ w hback => ⟨hback, fun hsome => ?_⟩) fun _ _ h => h
    rw [hjournal] at hsome
    cases hsome
  · have hat : At (p.covered journal journal) (disk.restored documents) :=
      at_restored ⟨hcovers.self, hjournal⟩ h.saved h.saved h.named h.written trivial trivial rfl trivial
    exact (resume_covered hp hcovers.opened hat).mono (fun _ w h => ⟨h.1, fun _ => h.2⟩) fun _ _ h => h

theorem closed_done {files : Dict String Text} {w : World} (hfinished : p.Finished files) (h : At (p.closed journal files) w) : p.Done w :=
  ⟨h.files.2, h.files.1.symm ▸ hfinished, h.documents, h.dag, h.saved⟩

/-- **A resume after the commit** drops the journal. -/
theorem restore_keeps_plan (hp : p.Valid) (h : p.Committed disk) (shown : Node → NodeStatus) :
    Prog.Spec Eq (OnDisk p.Committed) (fun _ => p.Done) (fun _ _ => False)
      (restore p.C p.sha256 p.max_nodes shown) disk.resume := by
  have hdag : disk.state_json.dag = p.dag := h.saved.dag
  have hloads : disk.state_json.point.Loads p.max_nodes p.documents := by
    refine ⟨?_, ?_, h.saved.checkpoint⟩
    · rw [h.saved.dag]
      exact hp.loads_new
    · rw [h.saved.dag]
      exact hp.bounded_new
  refine restore_spec hloads h.written h ?_
  have hcheck (journal : MaterializationJournal) : Leads p.Committed (At (p.closed journal disk.files)) (assert_sources p.C)
      (fun _ => p.Done) fun _ => False :=
    (assert_sources_ends (closed_firm_plan h.files) fun w hw => sources_current (hw.documents ▸ hw.files.1.symm ▸ h.files.current)).mono
      (fun _ h => h) (fun _ _ hw => closed_done h.files hw) fun _ _ h => h
  rcases h.journal with hjournal | ⟨journal, hjournal, hopened, hsettled⟩
  · have hat : At (p.closed p.opening disk.files) (disk.restored p.documents) :=
      at_restored ⟨rfl, hjournal⟩ h.saved h.saved h.named h.written rfl hdag rfl trivial
    have hg : (p.closed p.opening disk.files).Firm p.Committed := closed_firm_plan h.files
    refine Prog.Outline.bind (Q := fun _ => At (p.closed p.opening disk.files)) Publications.refl (leads_get hg fun w hw => ?_)
      (fun _ => hcheck _) _ hat
    rw [hw.files.2]
    exact .ret hg.kept fun _ h => h
  · have hat : At (p.committed journal disk.files) (disk.restored p.documents) :=
      at_restored ⟨rfl, hjournal⟩ h.saved h.saved h.named h.written rfl hdag rfl trivial
    have hg := committed_firm_plan hopened h.files hsettled
    refine Prog.Outline.bind (Q := fun _ => At (p.closed journal disk.files)) Publications.refl (leads_get hg fun w hw => ?_)
      (fun _ => hcheck _) _ hat
    rw [hw.files.2]
    exact (recover_keeps hopened h.files hsettled).mono (fun _ h => h) (fun _ _ h => h) fun _ _ ⟨⟨_, hfails⟩, _⟩ =>
      absurd hfails Bool.false_ne_true

def samplePlan : Plan where
  C := .ascii
  sha256 text := String.ofList text
  max_nodes := 128
  size _ := 0
  id := "2"
  start := sampleRest
  steps := [.write "LeanFlowProofs/H.lean" (some "theorem h : True := sorry".toList) none true fun _ => false,
    .compile "LeanFlowProofs/H.lean" false (some []),
    .call (some (.runtime_error "protected type"))]
  documents := sampleDocuments
  dag := sampleDag
  retired := []
  unstage changes := changes

def sampleFails : PlanFails where
  journal := false
  active := false
  commit _ := false
  unlink := false
  recover _ := false
  rolled_back := false

def sampleTransaction : Controller Unit := plan_transaction samplePlan.C samplePlan.size samplePlan sampleFails (·.status)

theorem build_head (x y : String) : (".lake/build/lib/lean/" ++ x ++ y).toList.head? = some '.' := by
  have hprefix : ".lake/build/lib/lean/".toList.head? = some '.' := by decide +kernel
  rw [String.toList_append, String.toList_append, List.append_assoc, List.head?_append, hprefix]
  rfl

theorem artifact_ne (file : String) : "A.lean" ≠ artifact_path file := by
  intro h
  have hhead : (artifact_path file).toList.head? = some '.' := build_head _ _
  rw [← h] at hhead
  exact absurd hhead (by decide +kernel)

theorem samplePlan_valid : samplePlan.Valid where
  compiled file hfile := by
    obtain rfl := List.mem_singleton.mp hfile
    exact ⟨by decide +kernel, "LeanFlowProofs/H.lean", by decide +kernel⟩
  distinct := List.nodup_singleton _
  written path hpath hmem := by
    obtain rfl := List.mem_singleton.mp hpath
    exact absurd (List.mem_singleton.mp hmem) (by decide +kernel)
  apart path hpath file hfile _ _ := by
    obtain rfl := List.mem_singleton.mp hpath
    obtain rfl := List.mem_singleton.mp hfile
    decide +kernel
  named step hstep f hf := by
    simp only [samplePlan, List.mem_cons, List.not_mem_nil, or_false] at hstep
    rcases hstep with rfl | rfl | rfl <;> cases hf
  unstaged _ h := h
  changes := nofun
  loads := by decide +kernel
  bounded := by decide +kernel
  loads_new := by decide +kernel
  bounded_new := by decide +kernel
  current path document hdocument := by
    have hitem := (Dict.get?_eq_some_iff ..).mp hdocument
    obtain ⟨rfl, rfl⟩ := Prod.mk.inj (List.mem_singleton.mp hitem)
    exact ⟨sampleSource.baseline, by decide +kernel, rfl⟩
  apart_sources path document hdocument := by
    have hitem := (Dict.get?_eq_some_iff ..).mp hdocument
    obtain ⟨rfl, rfl⟩ := Prod.mk.inj (List.mem_singleton.mp hitem)
    exact artifact_ne

theorem samplePlan_fresh : At samplePlan.fresh sampleRest where
  files := ⟨rfl, rfl⟩
  saved := ⟨Or.inl rfl, nofun, sampleDocuments, ⟨by decide +kernel, by decide +kernel, rfl⟩, fun _ => rfl⟩
  saved_named := nofun
  saved_written := sampleRest_idle.saved_written
  live := ⟨Or.inl rfl, nofun, sampleDocuments, ⟨by decide +kernel, by decide +kernel, rfl⟩, fun _ => rfl⟩
  live_named := nofun
  live_written := sampleRest_idle.live_written
  documents := rfl
  dag := rfl
  planning := trivial
  stored := sampleRest_idle.stored
  locked := rfl
  alone := nofun
  publishing := nofun

/-- The rollback has removed the helper, and not yet its artifact. -/
def halfUndone (w : World) : Bool :=
  (w.disk.files.get? "LeanFlowProofs/H.lean").isNone && (w.disk.files.get? (artifact_path "LeanFlowProofs/H.lean")).isSome &&
    w.disk.journal.isSome && w.disk.state_json.source_transaction != some "2"

theorem sampleTransaction_half_undone :
    (Prog.drive (Prog.restrict (fun (step : PublishStep) w => step.clean w = true) PublishStep.apply)
      (List.replicate 18 .act) (sampleTransaction, sampleRest)).any (fun c => halfUndone c.2) = true := by decide +kernel

/-- The helper is there, and neither the journal nor the durable state knows of it. -/
def stranded (w : World) : Bool :=
  (w.disk.files.get? "LeanFlowProofs/H.lean").isSome && w.disk.journal.isNone && w.disk.state_json.source_transaction != some "2"

/-- The handler finds the name of the transaction in the state, takes it for committed and drops its journal. -/
theorem failed_commit_stranded : ∃ (x : Controller Unit) (w : World),
    Prog.drive (Prog.restrict (fun (step : PublishStep) w => step.clean w = true) PublishStep.apply) (List.replicate 30 .act)
      (plan_transaction samplePlan.C samplePlan.size { samplePlan with steps := samplePlan.steps.take 2 }
        { sampleFails with commit := fun part => part == .dag_json } (·.status), sampleRest) = some (x, w) ∧
    w.disk.journal = none ∧ w.disk.state_json.source_transaction ≠ some samplePlan.id ∧ ¬ samplePlan.Undone w.disk.files := by
  have hruns : (Prog.drive (Prog.restrict (fun (step : PublishStep) w => step.clean w = true) PublishStep.apply) (List.replicate 30 .act)
      (plan_transaction samplePlan.C samplePlan.size { samplePlan with steps := samplePlan.steps.take 2 }
        { sampleFails with commit := fun part => part == .dag_json } (·.status), sampleRest)).any (fun c => stranded c.2) = true := by
    decide +kernel
  obtain ⟨⟨x, w⟩, hrun, hstranded⟩ := (Option.any_eq_true _ _).mp hruns
  simp only [stranded, Bool.and_eq_true, bne_iff_ne, Option.isNone_iff_eq_none] at hstranded
  refine ⟨x, w, hrun, hstranded.1.2, hstranded.2, fun hundone => ?_⟩
  rcases hundone "LeanFlowProofs/H.lean" with heq | ⟨heq, -⟩
  · rw [heq] at hstranded
    exact absurd hstranded.1.1 (by decide +kernel)
  · rw [heq] at hstranded
    exact absurd hstranded.1.1 Bool.false_ne_true

end LeanFlow.Transactions
