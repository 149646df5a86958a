import LeanFlow.Goals.Validation
import LeanFlow.Transactions.Acceptance

/-! The rollback of an acceptance.

It puts the source before back, then the graph and the records, persists them and drops the
journal. It raises only where a call is told to fail, and leaves the journal there (`Fails`). -/
namespace LeanFlow.Transactions
open General Goals Source Scene

variable {s : Scene} {g : Stage} {w : World} {journal : ProofJournal} {Φ : Prop}
variable {fails : RecoverStep → Bool} {shown : Node → NodeStatus}

/-! ### Records -/

/-- Whatever is live may be published, so the stage holds whatever is cleared in memory. -/
theorem Stage.Firm.untidy (hg : g.Firm s.Recoverable) (hlive : ∀ p, g.live p → g.saved p) : Stage.Firm s.Recoverable { g with tidy := false } where
  live _ h _ _ := hlive _ h.live
  decided := hg.decided

/-- All records but one name their path. -/
def NamedBut (i : Nat) (changes : List Change) : Prop :=
  ∀ j change, j ≠ i → changes[j]? = some change → change.path.isSome = true

theorem namedBut_clear {changes : List Change} (h : Named changes) (i : Nat) : NamedBut i (changes.modify i fun _ => {}) := by
  intro j change hj hchange
  rw [List.getElem?_modify_ne _ _ (Ne.symm hj)] at hchange
  exact h change (List.mem_of_getElem? hchange)

theorem named_fill {changes : List Change} {i : Nat} (h : NamedBut i changes) {before : Change} (hbefore : before.path.isSome = true) :
    Named (changes.modify i fun _ => before) := by
  intro change hchange
  obtain ⟨j, hj⟩ := List.mem_iff_getElem?.mp hchange
  by_cases hij : i = j
  · subst hij
    rw [List.getElem?_modify_eq] at hj
    obtain ⟨_, -, rfl⟩ := Option.map_eq_some_iff.mp hj
    exact hbefore
  · rw [List.getElem?_modify_ne _ _ hij] at hj
    exact h j change (Ne.symm hij) hj

/-- The record that is put back is empty for a moment. -/
theorem leads_restore_change (hg : g.Firm s.Recoverable) (htidy : g.tidy = true) (hlive : ∀ p, g.live p → g.saved p) (path : String)
    {before : Option Change} (hbefore : ∀ change, before = some change → change.path.isSome = true) {E : World → Prop} :
    Leads s.Recoverable (At g) (restore_change path before) (fun _ => At g) E := by
  refine leads_get hg fun w hw => ?_
  obtain ⟨prior, hprior⟩ := find_change_named (hw.live_named htidy) path
  rw [hprior]
  refine .bind (Q := fun found w => At g w ∧ found = prior) Publications.refl
    (.ret hg.kept fun _ h => ⟨h, rfl⟩) fun found => ?_
  rintro w' ⟨hw', rfl⟩
  revert w'
  show Leads s.Recoverable (At g) _ _ _
  cases found with
  | none => exact .ret hg.kept fun _ h => h
  | some i =>
    cases before with
    | none =>
      refine leads_changes hg fun changes h => ?_
      exact named_modify h i fun change hchange => hchange
    | some before =>
      have hnamed := hbefore before rfl
      have huntidy := hg.untidy hlive
      have hbut : Prog.Kept Publications (OnDisk s.Recoverable) fun w => At { g with tidy := false } w ∧ NamedBut i w.state.changes :=
        ⟨huntidy.kept.stable.and (stable_unpublished fun w w' h hsame => by rwa [hsame.state]),
          fun w h => huntidy.kept.inside w h.1⟩
      refine .bind (Q := fun _ w => At { g with tidy := false } w ∧ NamedBut i w.state.changes) Publications.refl
        (.modify hg.kept hbut fun w h => ?_) fun _ => ?_
      · exact ⟨{ h with live_named := nofun }, namedBut_clear (h.live_named htidy) i⟩
      refine .bind (Q := fun _ => At g) Publications.refl (.modify hbut hg.kept fun w h => ?_) fun _ => ?_
      · exact { h.1 with live_named := fun _ => named_fill h.2 hnamed }
      · refine leads_changes hg fun changes h => ?_
        exact named_modify h i fun change hchange => hchange

/-! ### The graph -/

theorem Scene.Graph.wellformed (hs : s.Valid) {status : NodeStatus → Prop} {dag : Dag} (h : s.Graph status dag) :
    dag.Wellformed s.max_nodes := by
  refine (dag.validate_iff s.max_nodes).mp ?_
  rw [Dag.validate, h.shapes, h.roots]
  exact hs.validates

theorem exists_by_id {dag : Dag} {id : String} (h : id ∈ dag.ids) : ∃ node, dag.by_id id = some node := by
  obtain ⟨node, hnode, rfl⟩ := List.mem_map.mp h
  exact Option.isSome_iff_exists.mp (List.find?_isSome.mpr ⟨node, hnode, beq_self_eq_true _⟩)

theorem exists_conditional {dag : Dag} {dependencies : List String} (h : dependencies ⊆ dag.ids) :
    ∃ pending, conditional dag dependencies = .ok pending := by
  induction dependencies with
  | nil => exact ⟨[], rfl⟩
  | cons dep dependencies ih =>
    obtain ⟨hdep, hrest⟩ := List.cons_subset.mp h
    obtain ⟨node, hnode⟩ := exists_by_id hdep
    obtain ⟨pending, hpending⟩ := ih hrest
    exact ⟨_, by rw [conditional, hnode, hpending]; rfl⟩

theorem Scene.Graph.node (hs : s.Valid) {status : NodeStatus → Prop} {dag : Dag} (h : s.Graph status dag) :
    ∃ node, dag.by_id s.sub.node.id = some node := by
  obtain ⟨node, hnode⟩ := hs.node
  have hshape := Dag.by_id_of_shapes h.shapes s.sub.node.id
  rw [hnode, Option.map_some] at hshape
  obtain ⟨found, hfound, -⟩ := Option.map_eq_some_iff.mp hshape
  exact ⟨found, hfound⟩

theorem At.assign (h : At g w) (hdag : g.dag = s.Graph (· ≠ .proved)) {f : Node → Node} (hshape : ∀ node, (f node).shape = node.shape)
    (hstatus : ∀ node, (f node).status ≠ .proved) : At g (w.updateNode s.sub.node.id f) :=
  { h with
    dag := by
      have hgraph : s.Graph (· ≠ .proved) w.dag := hdag ▸ h.dag
      rw [hdag]
      exact hgraph.update hshape fun node _ => hstatus node }

/-- Whatever the node's status was, it is a candidate again. -/
theorem leads_retain_candidate (hs : s.Valid) (hjournal : s.Journaled journal) {documents : Documents → Prop} {status : NodeStatus → Prop}
    {E : World → Prop} :
    Leads s.Recoverable (At (s.undone journal documents status)) (retain_candidate journal)
      (fun _ => At (s.undone journal documents (· ≠ .proved))) E := by
  have hg := undone_firm hjournal documents status
  have hg' := undone_firm hjournal documents (· ≠ .proved)
  unfold retain_candidate find_node
  rw [bind_assoc]
  refine leads_get hg fun w hw => ?_
  have hgraph : s.Graph status w.dag := hw.dag
  obtain ⟨node, hnode⟩ := hgraph.node hs
  rw [hjournal.node, hnode]
  refine .bind (Q := fun found w => At (s.undone journal documents status) w ∧ found = node) Publications.refl
    (.ret hg.kept fun _ h => ⟨h, rfl⟩) fun found => ?_
  rintro w' ⟨hw', rfl⟩
  revert w'
  show Leads s.Recoverable (At (s.undone journal documents status)) _ _ _
  refine leads_get hg fun w' hw' => ?_
  have hgraph' : s.Graph status w'.dag := hw'.dag
  obtain ⟨pending, hpending⟩ : ∃ pending, conditional w'.dag found.dependencies = .ok pending := by
    refine exists_conditional ?_
    have hids : w'.dag.ids = w.dag.ids := by rw [← Dag.ids_shapes, ← Dag.ids_shapes, hgraph'.shapes, hgraph.shapes]
    rw [hids]
    exact ((hgraph.wellformed hs).nodes found (Dag.mem_of_by_id hnode)).2.2.2.2.2
  rw [hpending]
  refine .bind (Q := fun _ => At (s.undone journal documents status)) Publications.refl (.ret hg.kept fun _ h => h) fun pending => ?_
  refine .modify hg.kept hg'.kept fun w h => ?_
  have hupdated : s.Graph status w.dag := h.dag
  exact { h with dag := hupdated.update (fun _ => rfl) fun _ _ => nofun }

/-! ### The rollback -/

theorem same_of_beside (hs : s.Valid) {documents : Documents} (h : s.Beside documents) :
    Same (documents.set s.file s.before) s.base := by
  intro path
  by_cases hpath : path = s.file
  · rw [hpath, Dict.get?_set_self, hs.known]
  · rw [Dict.get?_set_ne _ _ hpath, h path hpath]

theorem beside_of_same {documents : Documents} (h : Same documents s.base) : s.Beside documents := fun path _ => h path

theorem At.failed {documents : Documents → Prop} {status : NodeStatus → Prop} (h : At (s.undone journal documents status) w)
    (hdocuments : ∀ d, documents d → s.Beside d) : At (s.failed journal) w :=
  h.weaken (fun _ _ h => h.weaken fun _ => Or.inl) (fun _ h => h) (fun _ h => h) hdocuments
    (fun _ h => ⟨h.shapes, h.roots, fun _ _ => trivial⟩) (fun h => h) rfl fun _ _ => trivial

theorem At.failed_restored (h : At (s.restored journal) w) : At (s.failed journal) w :=
  h.weaken (fun _ _ h => h.weaken fun _ => Or.inl) (fun _ h => h.opened) (fun _ h => h.opened) (fun _ => beside_of_same)
    (fun _ h => ⟨h.shapes, h.roots, fun _ _ => trivial⟩) (fun h => h) rfl fun _ _ => trivial

/-- **The rollback restores what was**: the source, the documents and the graph, in memory and in the files. -/
theorem undo_proof_outline (hs : s.Valid) (hjournal : s.Journaled journal) (hΦ : ∀ step, fails step = true → Φ) :
    Prog.Outline Publications (OnDisk s.Recoverable) (At (s.failed journal)) (undo_proof s.C fails shown journal)
      (fun _ => At (s.restored journal)) (Fails Φ (s.failed journal)) := by
  have hpath : s.before.path = s.file := hs.paths _ _ hs.known
  have hfailed := failed_firm hjournal
  have hwritten := undone_firm hjournal s.Beside fun _ => True
  have hundone := undone_firm hjournal (Same · s.base) fun _ => True
  have hcandidate := undone_firm hjournal (Same · s.base) (· ≠ .proved)
  unfold undo_proof checked
  rw [hjournal.document, hs.renders, hpath]
  refine .bind (Q := fun text w => At (s.failed journal) w ∧ text = s.beforeText) Publications.refl
    (.ret hfailed.kept fun w h => ⟨h, rfl⟩) fun text => ?_
  rintro w ⟨hw, rfl⟩
  revert w
  show Prog.Outline Publications (OnDisk s.Recoverable) (At (s.failed journal)) _ _ _
  refine .bind Publications.refl (failing_outline hfailed.kept fun w hfails h => ⟨hΦ _ hfails, h⟩) fun _ => ?_
  refine .bind (Q := fun _ => At (s.undone journal s.Beside fun _ => True)) Publications.refl
    (.modify hfailed.kept hwritten.kept fun w h => { h with files := h.files.write rfl }) fun _ => ?_
  refine .bind (Q := fun _ => At (s.undone journal (Same · s.base) fun _ => True)) Publications.refl
    (.modify hwritten.kept hundone.kept fun w h => { h with documents := same_of_beside hs h.documents }) fun _ => ?_
  refine .bind Publications.refl (failing_outline hundone.kept fun w hfails h => ⟨hΦ _ hfails, h.failed fun _ => beside_of_same⟩) fun _ => ?_
  refine .bind Publications.refl (leads_unlink_artifact hundone (spares_sources hs rfl)) fun _ => ?_
  refine .bind Publications.refl (leads_retain_candidate hs hjournal) fun _ => ?_
  refine .bind Publications.refl (leads_restore_change hcandidate rfl (fun _ h => h) _ hjournal.named) fun _ => ?_
  refine (@persist_outline s.Recoverable (s.undone journal (Same · s.base) (· ≠ .proved)) Φ s.Unproved s.Unproved s.Open hcandidate
    (restored_firm hjournal) hcandidate rfl rfl (fun w h hstored => ?_) (fun _ h => h) (fun _ h => h.opened) (fun _ h => h)
    (fun part => fails (.persist part)) (fun part hfails => hΦ _ hfails) shown).mono (fun _ h => h) (fun _ _ h => h)
    fun _ _ h => ⟨h.1, h.2.failed fun _ => beside_of_same⟩
  exact ⟨h.dag, ⟨w.documents, hstored, h.documents⟩, h.live.transaction⟩

/-- Recovery of an installation that was not committed. -/
theorem recover_install_outline (hs : s.Valid) (hjournal : s.Journaled journal) (hΦ : ∀ step, fails step = true → Φ) :
    Prog.Outline Publications (OnDisk s.Recoverable) (At (s.failed journal)) (recover_install s.C s.sha256 fails shown journal)
      (fun _ => At (s.idle (Same · s.base))) (Fails Φ (s.failed journal)) := by
  have hpath : journal.before_document.path = s.file := by rw [hjournal.document, hs.paths _ _ hs.known]
  have hfailed := failed_firm hjournal
  have hrestored := restored_firm hjournal
  refine .bind (Q := fun w w' => At (s.failed journal) w' ∧ At (s.failed journal) w) Publications.refl
    (.get hfailed.kept fun w w' h hpublications => ⟨hfailed.kept.stable w w' h hpublications, h⟩) fun w => ?_
  rintro w' ⟨hw', hw⟩
  revert w'
  show Prog.Outline Publications (OnDisk s.Recoverable) (At (s.failed journal)) _ _ _
  obtain ⟨text, hfile, hcontent⟩ := hw.files.content
  rw [hpath, hfile]
  have hknown : ¬(s.sha256 text ≠ journal.before_sha256 ∧ s.sha256 text ≠ journal.after_sha256) := by
    rw [hjournal.before, hjournal.after]
    rcases hcontent with rfl | rfl
    · exact fun h => h.1 rfl
    · exact fun h => h.2 rfl
  have hopen : w.state.source_transaction ≠ some journal.id := hjournal.id ▸ hw.live.transaction
  dsimp only
  rw [if_neg hknown, if_neg hopen]
  refine .bind Publications.refl (undo_proof_outline hs hjournal hΦ) fun _ => ?_
  refine .bind Publications.refl (failing_outline hrestored.kept fun w hfails h => ⟨hΦ _ hfails, h.failed_restored⟩) fun _ => ?_
  exact .modify hrestored.kept (idle_firm _).kept fun w h => { h with files := { h.files with journal := rfl } }

/-- `recover_proof` in the process that failed. -/
theorem recover_proof_outline (hs : s.Valid) (hjournal : s.Journaled journal) (hΦ : ∀ step, fails step = true → Φ) :
    Prog.Outline Publications (OnDisk s.Recoverable) (At (s.failed journal)) (recover_proof s.C s.sha256 fails shown)
      (fun _ => At (s.idle (Same · s.base))) (Fails Φ (s.failed journal)) := by
  have hfailed := failed_firm hjournal
  refine .bind (Q := fun w w' => At (s.failed journal) w' ∧ At (s.failed journal) w) Publications.refl
    (.get hfailed.kept fun w w' h hpublications => ⟨hfailed.kept.stable w w' h hpublications, h⟩) fun w => ?_
  rintro w' ⟨hw', hw⟩
  rw [show w.disk.journal = some (.proof journal) from hw.files.journal]
  exact recover_install_outline hs hjournal hΦ w' hw'

end LeanFlow.Transactions
