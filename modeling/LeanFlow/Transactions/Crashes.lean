import LeanFlow.Transactions.Installing
import LeanFlow.Transactions.Resuming
import LeanFlow.Transactions.Submissions

/-! A crash in an acceptance, and every resume after it.

Whatever a run of `accept_locked` has written when it stops, and wherever the resumes
after it stop, the next resume ends: with the source and the graph before, or with the
source after and the node proved. -/
namespace LeanFlow.Transactions
open General Goals Source Scene

namespace Scene
variable (s : Scene)

/-- The files and the state name the source before, and the node is not proved. -/
structure Back (w : World) : Prop where
  journal : w.disk.journal = none
  source : w.disk.files.get? s.file = some s.beforeText
  documents : Same w.documents s.base
  live : s.Graph (· ≠ .proved) w.dag
  saved : s.Graph (· ≠ .proved) w.disk.state_json.dag

/-- The proof is in the source, in the document and in the graph. -/
structure Done (w : World) : Prop where
  journal : w.disk.journal = none
  source : w.disk.files.get? s.file = some s.afterText
  renders : s.after.render s.C [] = .ok s.afterText
  documents : s.Changed w.documents
  live : s.Graph (· = .proved) w.dag
  saved : s.Graph (· = .proved) w.disk.state_json.dag

end Scene

variable {s : Scene} {w : World} {journal : ProofJournal}

/-! ### The stage a resume starts from -/

theorem Scene.Graph.loads (hs : s.Valid) {status : NodeStatus → Prop} {p : Point} (h : s.Graph status p.dag) {documents : Documents}
    (hcheckpoint : p.checkpoint = some documents) : p.Loads s.max_nodes documents := by
  have hlength : p.dag.nodes.length = s.graph.nodes.length := by
    simpa only [Dag.shapes, List.length_map] using congrArg List.length h.shapes
  refine ⟨?_, ?_, hcheckpoint⟩
  · rw [hlength, Dag.validate, h.shapes, h.roots]
    exact hs.loads
  · rw [Dag.validate, h.shapes, h.roots]
    exact hs.validates

/-- The stages a resume may start from. -/
inductive Starts (s : Scene) (w : World) : Prop where
  | idle (h : At (s.idle (Same · s.base)) w)
  | failed {journal : ProofJournal} (hjournal : s.Journaled journal) (h : At (s.failed journal) w)
  | committed {journal : ProofJournal} (hjournal : s.Journaled journal) (h : At (s.committed journal) w)
  | closed (h : At s.closed w)

theorem Scene.Recoverable.starts (hs : s.Valid) {disk : Disk} (h : s.Recoverable disk) : ∃ documents,
    disk.state_json.point.Loads s.max_nodes documents ∧ Starts s (disk.restored documents) := by
  obtain ⟨⟨text, hfile, hdecided⟩, hothers, hnamed, hwritten⟩ := h
  generalize hj : disk.journal = j at hdecided
  generalize hp : disk.state_json.point = p at hdecided
  have hdag : disk.state_json.dag = p.dag := by rw [← hp]; rfl
  cases hdecided with
  | idle hu =>
    obtain ⟨documents, hcheckpoint, hsame⟩ := hu.checkpoint
    exact ⟨documents, hu.dag.loads hs hcheckpoint, .idle (at_restored ⟨hj, ⟨_, hfile, rfl⟩, hothers⟩ (hp ▸ hu) (hp ▸ hu)
      hnamed hwritten hsame (hdag ▸ hu.dag) rfl trivial)⟩
  | opened hjournal hu =>
    obtain ⟨documents, hcheckpoint, hsame⟩ := hu.checkpoint
    exact ⟨documents, hu.dag.loads hs hcheckpoint, .failed hjournal (at_restored ⟨hj, ⟨_, hfile, Or.inl rfl⟩, hothers⟩ (hp ▸ hu)
      (hp ▸ hu) hnamed hwritten hsame (hdag ▸ hu.dag) rfl trivial)⟩
  | written hjournal hu =>
    obtain ⟨documents, hcheckpoint, hsame⟩ := hu.checkpoint
    exact ⟨documents, hu.dag.loads hs hcheckpoint, .failed hjournal (at_restored ⟨hj, ⟨_, hfile, Or.inr rfl⟩, hothers⟩ (hp ▸ hu)
      (hp ▸ hu) hnamed hwritten hsame (hdag ▸ hu.dag) rfl trivial)⟩
  | committed hjournal hproved =>
    obtain ⟨documents, hcheckpoint, hsame⟩ := hproved.checkpoint
    exact ⟨documents, hproved.dag.loads hs hcheckpoint, .committed hjournal (at_restored ⟨hj, ⟨_, hfile, rfl⟩, hothers⟩ (hp ▸ hproved)
      (hp ▸ hproved) hnamed hwritten hsame (hdag ▸ hproved.dag) rfl trivial)⟩
  | closed hproved =>
    obtain ⟨documents, hcheckpoint, hsame⟩ := hproved.checkpoint
    exact ⟨documents, hproved.dag.loads hs hcheckpoint, .closed (at_restored ⟨hj, ⟨_, hfile, rfl⟩, hothers⟩ (hp ▸ hproved)
      (hp ▸ hproved) hnamed hwritten hsame (hdag ▸ hproved.dag) rfl trivial)⟩

/-! ### The end of a resume -/

/-- Where every document is the one before or the proved one, the sources are as documented. -/
theorem sources_ok (hs : s.Valid) {document : SourceDocument} {text : Text}
    (hdocuments : Same w.documents (s.base.set s.file document)) (hpath : document.path = s.file)
    (hrender : document.render s.C [] = .ok text) (hfile : w.disk.files.get? s.file = some text) (hothers : s.Others w.disk.files) :
    w.sources s.C = .ok () := by
  refine (sources_iff s.C).mpr fun path other hother => ?_
  rw [hdocuments path] at hother
  by_cases hsame : path = s.file
  · rw [hsame, Dict.get?_set_self] at hother
    obtain rfl := Option.some.inj hother
    exact ⟨text, hrender, hpath ▸ hfile⟩
  · rw [Dict.get?_set_ne _ _ hsame] at hother
    obtain ⟨text', htext, hfile'⟩ := hothers path other hsame hother
    exact ⟨text', htext, (hs.paths path other hother).symm ▸ hfile'⟩

theorem At.back (h : At (s.idle (Same · s.base)) w) : s.Back w := by
  obtain ⟨text, hfile, rfl⟩ := h.files.content
  exact ⟨h.files.journal, hfile, h.documents, h.dag, h.saved.dag⟩

theorem At.done (h : At s.closed w) : s.Done w := by
  obtain ⟨text, hfile, rfl⟩ := h.files.content
  exact ⟨h.files.journal, hfile, h.saved.renders, h.documents, h.dag, h.saved.dag⟩

theorem Scene.Back.sources (hs : s.Valid) (h : s.Back w) (hothers : s.Others w.disk.files) : w.sources s.C = .ok () := by
  refine sources_ok hs (fun path => ?_) (hs.paths _ _ hs.known) hs.renders h.source hothers
  rw [h.documents path, Dict.get?_set]
  split
  · rw [‹path = s.file›, hs.known]
  · rfl

theorem Scene.Done.sources (hs : s.Valid) (h : s.Done w) (hothers : s.Others w.disk.files) : w.sources s.C = .ok () :=
  sources_ok hs h.documents (show s.before.path = s.file from hs.paths _ _ hs.known) h.renders h.source hothers

/-- A committed installation is the source and the checkpoint: only its journal is dropped. -/
theorem recover_committed (hs : s.Valid) (hjournal : s.Journaled journal) (shown : Node → NodeStatus) :
    Leads s.Recoverable (At (s.committed journal)) (recover_install s.C s.sha256 (fun _ => false) shown journal)
      (fun _ => At s.closed) fun _ => False := by
  have hpath : journal.before_document.path = s.file := by rw [hjournal.document, hs.paths _ _ hs.known]
  have hcommitted := committed_firm hjournal
  refine leads_get hcommitted fun w hw => ?_
  obtain ⟨text, hfile, rfl⟩ := hw.files.content
  have hid : w.state.source_transaction = some journal.id := hjournal.id ▸ hw.live.transaction
  rw [hpath, hfile]
  have hknown : ¬(s.sha256 s.afterText ≠ journal.before_sha256 ∧ s.sha256 s.afterText ≠ journal.after_sha256) :=
    fun h => h.2 hjournal.after.symm
  dsimp only
  rw [if_neg hknown, if_pos hid]
  refine .bind (Q := fun _ => At (s.committed journal)) Publications.refl ?_ fun _ => ?_
  · refine leads_get hcommitted fun w hw => ?_
    have hdocument : w.documents.get? journal.before_document.path = some s.after := by
      rw [hpath, hw.documents s.file, Dict.get?_set_self]
    rw [hdocument]
    have hchecked : (checked (s.after.render s.C []) : Controller Text) = .ret s.afterText := by
      rw [hw.live.renders]
      rfl
    have hsame : ¬(s.sha256 s.afterText ≠ journal.after_sha256 ∨ s.sha256 s.afterText ≠ s.sha256 s.afterText) := by
      rw [hjournal.after]
      simp
    dsimp only
    rw [hchecked]
    show Leads s.Recoverable _ (if _ then _ else _) _ _
    rw [if_neg hsame]
    exact .ret hcommitted.kept fun _ h => h
  · exact .modify hcommitted.kept (@closed_firm s).kept fun w h => { h with files := { h.files with journal := rfl } }

/-- What a resume ends in. -/
def Scene.Ended (s : Scene) (w : World) : Prop := s.Back w ∨ s.Done w

/-- Recovery and the check of the sources, from every stage a resume may start from. -/
theorem recover_ends (hs : s.Valid) (shown : Node → NodeStatus) (h : Starts s w) :
    Prog.Spec Publications (OnDisk s.Recoverable) (fun _ w => s.Ended w) (fun _ _ => False) (do
      recover_proof s.C s.sha256 (fun _ => false) shown
      assert_sources s.C) w := by
  have hidle := idle_firm (s := s) (Same · s.base)
  have hclosed := @closed_firm s
  have hback : Leads s.Recoverable (At (s.idle (Same · s.base))) (assert_sources s.C) (fun _ w => s.Ended w) fun _ => False :=
    (assert_sources_ends hidle fun w h => h.back.sources hs h.files.others).mono (fun _ h => h) (fun _ _ h => Or.inl h.back) fun _ _ h => h
  have hdone : Leads s.Recoverable (At s.closed) (assert_sources s.C) (fun _ w => s.Ended w) fun _ => False :=
    (assert_sources_ends hclosed fun w h => h.done.sources hs h.files.others).mono (fun _ h => h) (fun _ _ h => Or.inr h.done) fun _ _ h => h
  cases h with
  | idle h =>
    refine Prog.Outline.bind Publications.refl (leads_get hidle fun w hw => ?_) (fun _ => hback) w h
    rw [show w.disk.journal = none from hw.files.journal]
    exact .ret hidle.kept fun _ h => h
  | failed hjournal h =>
    refine Prog.Outline.bind (Q := fun _ => At (s.idle (Same · s.base))) Publications.refl
      ((recover_proof_outline (Φ := False) hs hjournal fun _ hfails => absurd hfails Bool.false_ne_true).mono (fun _ h => h) (fun _ _ h => h) fun _ _ h => h.1)
      (fun _ => hback) w h
  | committed hjournal h =>
    refine Prog.Outline.bind (Q := fun _ => At s.closed) Publications.refl
      (leads_get (committed_firm hjournal) fun w hw => ?_) (fun _ => hdone) w h
    rw [show w.disk.journal = some (.proof _) from hw.files.journal]
    exact recover_committed hs hjournal shown
  | closed h =>
    refine Prog.Outline.bind Publications.refl (leads_get hclosed fun w hw => ?_) (fun _ => hdone) w h
    rw [show w.disk.journal = none from hw.files.journal]
    exact .ret hclosed.kept fun _ h => h

/-- **A resume that nothing disturbs ends, before or after the acceptance.** -/
theorem restore_ends (hs : s.Valid) {disk : Disk} (h : s.Recoverable disk) (shown : Node → NodeStatus) :
    Prog.Spec Eq (OnDisk s.Recoverable) (fun _ w => s.Ended w) (fun _ _ => False)
      (restore s.C s.sha256 s.max_nodes shown) disk.resume := by
  obtain ⟨documents, hloads, hstarts⟩ := h.starts hs
  exact restore_spec hloads h.written h (recover_ends hs shown hstarts)

/-- An acceptance that was finished stays. -/
theorem Scene.Ended.done_of_closed (hs : s.Valid) {w' : World} (h : s.Ended w') (hat : At s.closed w) {disk : Disk}
    (hresumed : Resumed s.C s.sha256 s.max_nodes w.disk disk) {shown : Node → NodeStatus} {r : Except Raised Unit}
    (hcalm : Prog.calm (restore s.C s.sha256 s.max_nodes shown) disk.resume = (r, w')) : s.Done w' := by
  obtain rfl := hresumed.eq hat.files.journal
  refine h.resolve_left fun hback => ?_
  have hsaved := hback.saved
  rw [calm_disk hat.files.journal hcalm] at hsaved
  exact Graph.ne hs hsaved hat.saved.dag rfl

/-- One that left nothing leaves nothing. -/
theorem Scene.Ended.back_of_idle (hs : s.Valid) {w' : World} (h : s.Ended w') (hat : At (s.idle (Same · s.base)) w) {disk : Disk}
    (hresumed : Resumed s.C s.sha256 s.max_nodes w.disk disk) {shown : Node → NodeStatus} {r : Except Raised Unit}
    (hcalm : Prog.calm (restore s.C s.sha256 s.max_nodes shown) disk.resume = (r, w')) : s.Back w' := by
  obtain rfl := hresumed.eq hat.files.journal
  refine h.resolve_right fun hdone => ?_
  have hsaved := hdone.saved
  rw [calm_disk hat.files.journal hcalm] at hsaved
  exact Graph.ne hs hat.saved.dag hsaved rfl

/-- **Crash consistency**: wherever an acceptance stops, among clean publications, and wherever the resumes after
it stop, the next one ends, before the acceptance or after it; what the acceptance has returned is final. -/
theorem acceptance_survives (hs : s.Valid) (hafter : ∀ text, s.after.render s.C [] = .ok text → text = s.afterText) {w₀ : World}
    (h₀ : At (s.idle (Same · s.base)) w₀) {fails : Step → Bool} {shown : Node → NodeStatus} {moves : List (Prog.Move PublishStep)}
    {x : Controller Bool} (hrun : Prog.drive (Prog.restrict (fun (step : PublishStep) w => step.clean w = true) PublishStep.apply) moves
      (accept_locked s.C s.sha256 fails shown s.sub, w₀) = some (x, w)) {disk : Disk}
    (hresumed : Resumed s.C s.sha256 s.max_nodes w.disk disk) (shown' : Node → NodeStatus) :
    ∃ w', Prog.calm (restore s.C s.sha256 s.max_nodes shown') disk.resume = (.ok (), w') ∧
      s.Ended w' ∧ (x = .ret true → s.Done w') ∧ (x = .ret false → s.Back w') := by
  have hspec := (accept_locked_leads hs hafter w₀ h₀).drive Publications.refl Publications.trans clean_publications hrun
  have hrecoverable := hresumed.keeps (fun disk h shown => (restore_ends hs h shown).any) (hspec.inv Publications.refl)
  obtain ⟨w', hcalm, hended⟩ := restore_calm (restore_ends hs hrecoverable shown')
  refine ⟨w', hcalm, hended, ?_, ?_⟩
  · rintro rfl
    exact hended.done_of_closed hs (hspec w (Publications.refl w)).2 hresumed hcalm
  · rintro rfl
    exact hended.back_of_idle hs (hspec w (Publications.refl w)).2 hresumed hcalm

/-! ### An acceptance of one candidate -/

def sampleScene : Scene where
  C := .ascii
  sha256 text := String.ofList text
  sub := {
    node := sampleNode
    candidate := ["trivial".toList]
    job_id := "1"
    proof_imports := []
    transaction_id := "1"
    verdict := .accepted
    compiled := some [] }
  base := sampleDocuments
  graph := sampleDag
  max_nodes := 128
  before := sampleSource
  beforeText := "theorem t : True := sorry".toList
  afterText := "theorem t : True := trivial".toList

theorem sampleScene_valid : sampleScene.Valid where
  known := rfl
  paths path document hdocument := by
    have hitem := (Dict.get?_eq_some_iff ..).mp hdocument
    obtain ⟨rfl, rfl⟩ := Prod.mk.inj (List.mem_singleton.mp hitem)
    rfl
  renders := by decide +kernel
  apart path document hdocument := by
    have hitem := (Dict.get?_eq_some_iff ..).mp hdocument
    obtain ⟨rfl, rfl⟩ := Prod.mk.inj (List.mem_singleton.mp hitem)
    decide +kernel
  loads := by decide +kernel
  validates := by decide +kernel
  node := ⟨sampleNode, rfl⟩

theorem sampleDag_unproved : sampleScene.Graph (· ≠ .proved) sampleDag where
  shapes := rfl
  roots := rfl
  status node hnode := by
    obtain rfl : sampleNode = node := Option.some.inj hnode
    exact nofun

theorem sample_unproved : sampleScene.Unproved sampleRest.state.point where
  dag := sampleDag_unproved
  checkpoint := ⟨sampleDocuments, rfl, fun _ => rfl⟩
  transaction := nofun

theorem sampleRest_idle : At (sampleScene.idle (Same · sampleScene.base)) sampleRest where
  files := by
    refine ⟨rfl, ⟨_, rfl, rfl⟩, fun path document hpath hdocument => ?_⟩
    have hitem := (Dict.get?_eq_some_iff ..).mp hdocument
    exact absurd (Prod.mk.inj (List.mem_singleton.mp hitem)).1 hpath
  saved := sample_unproved
  saved_named := nofun
  saved_written := by
    rintro documents h
    exact List.mem_singleton.mpr (Option.some.inj h).symm
  live := sample_unproved
  live_named := nofun
  live_written := by
    rintro documents h
    exact List.mem_singleton.mpr (Option.some.inj h).symm
  documents _ := rfl
  dag := sampleDag_unproved
  planning := trivial
  stored := by
    rintro documents h
    exact List.mem_singleton.mpr (Option.some.inj h).symm
  locked := rfl
  alone := nofun
  publishing := nofun

def sampleAcceptance : Controller Bool :=
  accept_locked sampleScene.C sampleScene.sha256 (fun _ => false) (·.status) sampleScene.sub

def sampleResume : Controller Unit := restore sampleScene.C sampleScene.sha256 sampleScene.max_nodes (·.status)

/-- The source after is written, another thread publishes, and the process is gone. -/
theorem sample_survives : ∃ (x : Controller Bool) (w : World),
    Prog.drive (Prog.restrict (fun (step : PublishStep) w => step.clean w = true) PublishStep.apply)
      (List.replicate 16 .act ++ [.other (.begin (·.status)), .other .list]) (sampleAcceptance, sampleRest) = some (x, w) ∧
    w.disk.files.get? "A.lean" = some sampleScene.afterText ∧
    ∃ w', Prog.calm sampleResume w.disk.resume = (.ok (), w') ∧ sampleScene.Ended w' := by
  have hafter : ∀ text, sampleScene.after.render sampleScene.C [] = .ok text → text = sampleScene.afterText := by
    have hrender : sampleScene.after.render sampleScene.C [] = .ok sampleScene.afterText := by decide +kernel
    intro text htext
    exact Except.ok.inj (htext.symm.trans hrender)
  have hwrites : (Prog.drive (Prog.restrict (fun (step : PublishStep) w => step.clean w = true) PublishStep.apply)
      (List.replicate 16 .act ++ [.other (.begin (·.status)), .other .list]) (sampleAcceptance, sampleRest)).any
        (fun c => decide (c.2.disk.files.get? "A.lean" = some sampleScene.afterText)) = true := by decide +kernel
  obtain ⟨⟨x, w⟩, hrun, hfile⟩ := (Option.any_eq_true _ _).mp hwrites
  obtain ⟨w', hcalm, hended, -⟩ := acceptance_survives sampleScene_valid hafter sampleRest_idle hrun .refl (·.status)
  exact ⟨x, w, hrun, of_decide_eq_true hfile, w', hcalm, hended⟩

/-- **A publication that begins on a torn state** writes the id of the transaction beside the sources before:
the resume then takes the source after for a conflict. -/
theorem sample_wedged : ∃ (x : Controller Bool) (w : World),
    Prog.drive PublishStep.apply (List.replicate 32 .act ++
      [.other (.begin (·.status)), .other .list, .other .record, .other .write]) (sampleAcceptance, sampleRest) = some (x, w) ∧
    (Prog.calm sampleResume w.disk.resume).1 = .error (.source_conflict "A.lean") := by
  have hrefuses : (Prog.drive PublishStep.apply (List.replicate 32 .act ++
      [.other (.begin (·.status)), .other .list, .other .record, .other .write]) (sampleAcceptance, sampleRest)).any
        (fun c => decide ((Prog.calm sampleResume c.2.disk.resume).1 = .error (.source_conflict "A.lean"))) = true := by decide +kernel
  obtain ⟨⟨x, w⟩, hrun, hrefused⟩ := (Option.any_eq_true _ _).mp hrefuses
  exact ⟨x, w, hrun, of_decide_eq_true hrefused⟩

end LeanFlow.Transactions
