import LeanFlow.Transactions.Planned

/-! Recovery of a planning transaction.

It puts every path of the journal back, last write first, then the artifacts, then the graph;
cut off anywhere, or failing, it leaves files the journal on disk covers, so the next recovery
starts anew. A resume recovers by that journal, the handler of a failed transaction by the one
in memory. -/
namespace LeanFlow.Transactions
open General Goals Source Plan

namespace Plan
variable (p : Plan)

/-- The documents that were, in any order. -/
def Kept (documents : Documents) : Prop := ∀ path, documents.get? path = p.start.documents.get? path

/-- The files are back, and so are the documents and the graph in memory. -/
def reverted (journal held : MaterializationJournal) : Stage where
  files := fun files journal' => p.Held journal held files ∧ p.Undone files ∧ journal' = some (.materialization journal)
  saved := p.Before
  live := p.Before
  documents := (· = p.start.documents)
  dag := (· = p.start.dag)

/-- Nothing of the transaction is left. -/
def gone (documents : Documents → Prop) (dag : Dag → Prop) : Stage where
  files := fun files journal => p.Undone files ∧ journal = none
  saved := p.Before
  live := p.Before
  documents := documents
  dag := dag

end Plan

variable {p : Plan} {journal held : MaterializationJournal} {fails : RecoverStep → Bool} {shown : Node → NodeStatus}

theorem reverted_firm : (p.reverted journal held).Firm p.Undoable where
  live _ h _ _ := h.live
  decided _ hfiles hsaved hnamed hwritten := ⟨Or.inr ⟨journal, hfiles.2.2, hfiles.1.disk⟩, hsaved, hnamed, hwritten⟩

theorem gone_firm (documents : Documents → Prop) (dag : Dag → Prop) : (p.gone documents dag).Firm p.Undoable where
  live _ h _ _ := h.live
  decided _ hfiles hsaved hnamed hwritten := ⟨Or.inl ⟨hfiles.2, hfiles.1⟩, hsaved, hnamed, hwritten⟩

/-! ### The files -/

/-- In the middle of a recovery: what the files are, beside being covered. -/
def Plan.Undoing (p : Plan) (journal held : MaterializationJournal) (P : Dict String Text → Prop) (w : World) : Prop :=
  At (p.covered journal held) w ∧ P w.disk.files

/-- A recovery raises only where one of its calls fails, and can be made again. -/
def Plan.Broken (p : Plan) (fails : RecoverStep → Bool) (journal held : MaterializationJournal) (w : World) : Prop :=
  (∃ step, fails step = true) ∧ At (p.covered journal held) w

theorem undoing_kept (P : Dict String Text → Prop) : Prog.Kept Publications (OnDisk p.Undoable) (p.Undoing journal held P) :=
  ⟨covered_firm.kept.stable.and (stable_unpublished fun w w' h hsame => by rwa [hsame.files]),
    fun w h => covered_firm.kept.inside w h.1⟩

theorem leads_undo_failing (P : Dict String Text → Prop) (step : RecoverStep) (e : Raised) :
    Leads p.Undoable (p.Undoing journal held P) (failing (fails step) e) (fun _ => p.Undoing journal held P) (p.Broken fails journal held) :=
  failing_outline (undoing_kept P) fun _ hfails h => ⟨⟨step, hfails⟩, h.1⟩

/-- The paths still to be put back are as observed, the others are back. -/
structure Returning (held : MaterializationJournal) (observed : World) (rest : List (String × WriteEntry))
    (files : Dict String Text) : Prop where
  observed : ∀ item ∈ rest, files.get? item.1 = observed.disk.files.get? item.1
  back : ∀ path entry, held.writes.get? path = some entry → (path, entry) ∉ rest → files.get? path = entry.before

theorem Returning.put {observed : World} {item : String × WriteEntry} {rest : List (String × WriteEntry)} {files files' : Dict String Text}
    (h : Returning held observed (item :: rest) files) (hitems : ∀ item' ∈ item :: rest, held.writes.get? item'.1 = some item'.2)
    (hdistinct : ((item :: rest).map Prod.fst).Nodup) (hself : files'.get? item.1 = item.2.before)
    (hothers : ∀ path entry, held.writes.get? path = some entry → path ≠ item.1 → files'.get? path = files.get? path) :
    Returning held observed rest files' where
  observed item' hitem' := by
    have hne : item'.1 ≠ item.1 := fun heq => (List.nodup_cons.mp hdistinct).1 (heq ▸ List.mem_map_of_mem hitem')
    rw [hothers item'.1 item'.2 (hitems item' (List.mem_cons_of_mem _ hitem')) hne]
    exact h.observed item' (List.mem_cons_of_mem _ hitem')
  back path entry hentry hrest := by
    by_cases hsame : path = item.1
    · subst hsame
      obtain rfl := Option.some.inj ((hitems item (List.mem_cons_self ..)).symm.trans hentry)
      exact hself
    · rw [hothers path entry hentry hsame]
      refine h.back path entry hentry fun hmem => ?_
      rcases List.mem_cons.mp hmem with heq | hmem
      · exact hsame (congrArg Prod.fst heq)
      · exact hrest hmem

/-- Files the journal does not name do not matter. -/
theorem Returning.same {observed : World} {rest : List (String × WriteEntry)} {files files' : Dict String Text}
    (h : Returning held observed rest files) (hitems : ∀ item ∈ rest, held.writes.get? item.1 = some item.2)
    (hothers : ∀ path entry, held.writes.get? path = some entry → files'.get? path = files.get? path) :
    Returning held observed rest files' where
  observed item hitem := (hothers item.1 item.2 (hitems item hitem)).trans (h.observed item hitem)
  back path entry hentry hrest := (hothers path entry hentry).trans (h.back path entry hentry hrest)

theorem leads_put {P P' : Dict String Text → Prop} {path : String} (content : Option Text)
    (h : ∀ files, p.Held journal held files → P files → p.Held journal held (put_file path content files) ∧ P' (put_file path content files))
    {E : World → Prop} :
    Leads p.Undoable (p.Undoing journal held P) (Prog.modify (World.put path content)) (fun _ => p.Undoing journal held P') E := by
  refine .modify (undoing_kept P) (undoing_kept P') fun w hw => ?_
  obtain ⟨hheld, hP⟩ := h w.disk.files hw.1.files.1 hw.2
  rw [put_eq]
  exact ⟨{ hw.1 with files := ⟨hheld, hw.1.files.2⟩ }, hP⟩

/-- One path is put back. -/
theorem leads_restore_file (hopened : p.Opened held) {observed : World} {item : String × WriteEntry} {rest : List (String × WriteEntry)}
    (hitems : ∀ item' ∈ item :: rest, held.writes.get? item'.1 = some item'.2) (hdistinct : ((item :: rest).map Prod.fst).Nodup) :
    Leads p.Undoable (p.Undoing journal held (Returning held observed (item :: rest))) (restore_file fails observed item)
      (fun _ => p.Undoing journal held (Returning held observed rest)) (p.Broken fails journal held) := by
  have hitem := hitems item (List.mem_cons_self ..)
  have hk := @undoing_kept p journal held (Returning held observed (item :: rest))
  have hk₁ := @undoing_kept p journal held (Returning held observed rest)
  refine .bind (Q := fun w w' => p.Undoing journal held (Returning held observed (item :: rest)) w' ∧
    w.disk.files.get? item.1 = observed.disk.files.get? item.1) Publications.refl (.get hk fun w w' h hpublications =>
      ⟨hk.stable w w' h hpublications, h.2.observed item (List.mem_cons_self ..)⟩) fun w => ?_
  rintro w' ⟨hw', hsame⟩
  revert w'
  show Leads p.Undoable (p.Undoing journal held (Returning held observed (item :: rest))) (if _ then _ else _) _ _
  rw [if_neg (not_not.mpr hsame)]
  refine .bind Publications.refl (leads_undo_failing _ _ _) fun _ => ?_
  refine .bind (Q := fun _ => p.Undoing journal held (Returning held observed rest)) Publications.refl
    (leads_put _ fun files hheld hreturning => ⟨?_, ?_⟩) fun _ => .ite (fun hnew => ?_) fun _ => .ret hk₁ fun _ h => h
  · rw [(hheld.memory.entries item.1 item.2 hitem).1]
    exact hheld.put_back item.1
  · exact hreturning.put hitems hdistinct (get?_put_self ..) fun path entry _ hne => get?_put_ne _ _ hne
  · refine .bind Publications.refl (leads_undo_failing _ _ _) fun _ => ?_
    refine leads_put none fun files hheld hreturning => ⟨hheld.erase_artifact hitem hnew.1 hnew.2, ?_⟩
    refine hreturning.same (fun item' hitem' => hitems item' (List.mem_cons_of_mem _ hitem')) fun path entry hentry => ?_
    refine get?_put_ne _ _ fun heq => ?_
    rw [heq, hopened.apart item.1 item.2 hitem hnew.1 hnew.2] at hentry
    cases hentry

theorem leads_restore_files (hopened : p.Opened held) {observed : World} {items : List (String × WriteEntry)}
    (hitems : ∀ item ∈ items, held.writes.get? item.1 = some item.2) (hdistinct : (items.map Prod.fst).Nodup) :
    Leads p.Undoable (p.Undoing journal held (Returning held observed items)) (items.forM (restore_file fails observed))
      (fun _ => p.Undoing journal held (Returning held observed [])) (p.Broken fails journal held) := by
  induction items with
  | nil => exact .ret (undoing_kept _) fun _ h => h
  | cons item items ih =>
    refine .bind Publications.refl (leads_restore_file hopened hitems hdistinct) fun _ => ?_
    exact ih (fun item' hitem' => hitems item' (List.mem_cons_of_mem _ hitem')) (List.nodup_cons.mp hdistinct).2

/-- All paths are back, and all artifacts but those of some modules. -/
structure Rebuilt (p : Plan) (held : MaterializationJournal) (rest : List String) (files : Dict String Text) : Prop where
  back : ∀ path entry, held.writes.get? path = some entry → files.get? path = entry.before
  artifacts : ∀ file ∈ held.compiled_modules, file ∉ rest → files.get? (artifact_path file) = p.before (artifact_path file)

theorem Rebuilt.put {file : String} {rest : List String} {files : Dict String Text} (h : Rebuilt p held (file :: rest) files)
    (hopened : p.Opened held) (hfile : file ∈ held.compiled_modules) :
    Rebuilt p held rest (put_file (artifact_path file) (p.before (artifact_path file)) files) where
  back path entry hentry := by
    refine (get?_put_ne _ _ fun heq => ?_).trans (h.back path entry hentry)
    rw [heq, (hopened.compiled file hfile).2.2.2] at hentry
    cases hentry
  artifacts other hother hrest := by
    by_cases hsame : artifact_path other = artifact_path file
    · rw [hsame, get?_put_self]
    · rw [get?_put_ne _ _ hsame]
      exact h.artifacts other hother fun hmem => (List.mem_cons.mp hmem).elim (fun heq => hsame (congrArg artifact_path heq)) hrest

theorem leads_restore_artifacts (hopened : p.Opened held) {files : List String} (hfiles : ∀ file ∈ files, file ∈ held.compiled_modules) :
    Leads p.Undoable (p.Undoing journal held (Rebuilt p held files))
      ((files.map fun file => (artifact_path file, p.before (artifact_path file))).forM (restore_artifact fails))
      (fun _ => p.Undoing journal held (Rebuilt p held [])) (p.Broken fails journal held) := by
  induction files with
  | nil => exact .ret (undoing_kept _) fun _ h => h
  | cons file files ih =>
    obtain ⟨hfile, hrest⟩ := List.forall_mem_cons.mp hfiles
    refine .bind (Q := fun _ => p.Undoing journal held (Rebuilt p held files)) Publications.refl ?_ fun _ => ih hrest
    refine .bind Publications.refl (leads_undo_failing _ _ _) fun _ => ?_
    exact leads_put _ fun files hheld h => ⟨hheld.put_back _, h.put hopened hfile⟩

/-! ### Recovery -/

theorem artifacts_ok (hopened : p.Opened held) :
    held.artifacts = .ok (held.compiled_modules.map fun file => (artifact_path file, p.before (artifact_path file))) := by
  refine mapM_eq_map fun file hfile => ?_
  obtain ⟨hgenerated, ⟨path, hsafe⟩, hrecord, -⟩ := hopened.compiled file hfile
  rw [if_pos hgenerated, hsafe, hrecord]
  rfl

theorem validate_covered {w : World} (h : p.Covers held w.disk.files) : held.validate false w = .ok () := by
  refine forM_eq_ok.mpr fun item hitem => if_pos ?_
  have hallowed := (h.entries item.1 item.2 ((Dict.get?_eq_some_iff ..).mpr hitem)).2.2
  exact List.contains_iff_mem.mpr hallowed

theorem At.covered_of_reverted {w : World} (h : At (p.reverted journal held) w) : At (p.covered journal held) w :=
  { h with
    files := ⟨h.files.1, h.files.2.2⟩
    documents := trivial
    dag := trivial }

/-- **The undo** puts everything back, and persists it. -/
theorem leads_undo (hp : p.Valid) (hopened : p.Opened held) (observed : World) :
    Leads p.Undoable (p.Undoing journal held (· = observed.disk.files)) (undo_materialization fails shown held
      (held.compiled_modules.map fun file => (artifact_path file, p.before (artifact_path file))) observed)
      (fun _ => At (p.reverted journal held)) (p.Broken fails journal held) := by
  have hstart (w : World) (h : p.Undoing journal held (· = observed.disk.files) w) :
      p.Undoing journal held (Returning held observed held.writes.items.reverse) w := by
    refine ⟨h.1, fun item _ => by rw [h.2], fun path entry hentry hrest => absurd ?_ hrest⟩
    exact List.mem_reverse.mpr ((Dict.get?_eq_some_iff ..).mp hentry)
  have hitems (item : String × WriteEntry) (hitem : item ∈ held.writes.items.reverse) : held.writes.get? item.1 = some item.2 :=
    (Dict.get?_eq_some_iff ..).mpr (List.mem_reverse.mp hitem)
  have hdistinct : (held.writes.items.reverse.map Prod.fst).Nodup := by
    rw [List.map_reverse]
    exact List.nodup_reverse.mpr held.writes.distinct
  refine .bind (Q := fun _ => p.Undoing journal held (Returning held observed [])) Publications.refl
    ((leads_restore_files hopened hitems hdistinct).mono hstart (fun _ _ h => h) fun _ _ h => h) fun _ => ?_
  refine .bind (Q := fun _ => p.Undoing journal held (Rebuilt p held [])) Publications.refl
    ((leads_restore_artifacts hopened fun _ h => h).mono (fun w h => ⟨h.1, fun path entry hentry => ?_, fun _ hfile hrest => absurd hfile hrest⟩)
      (fun _ _ h => h) fun _ _ h => h) fun _ => ?_
  · exact h.2.back path entry hentry List.not_mem_nil
  refine .bind (Q := fun _ => At (p.reverted journal held)) Publications.refl (.modify (undoing_kept _) reverted_firm.kept fun w h => ?_) fun _ => ?_
  · have hundone := h.1.files.1.memory.undone h.2.back fun file hfile => h.2.artifacts file hfile List.not_mem_nil
    exact { h.1 with
      files := ⟨h.1.files.1, hundone, h.1.files.2⟩
      live_named := fun _ => by
        show Named held.before_changes
        rw [hopened.changes]
        exact hp.changes
      documents := hopened.documents
      dag := hopened.dag }
  refine (@persist_outline p.Undoable (p.reverted journal held) (∃ step, fails step = true) p.Before p.Before p.Before reverted_firm reverted_firm
    reverted_firm rfl rfl (fun w h hstored => ?_) (fun _ h => h) (fun _ h => h) (fun _ h => h) _ (fun part hfails => ⟨.persist part, hfails⟩)
    shown).mono (fun _ h => h) (fun _ _ h => h) fun _ _ h => ⟨h.1, h.2.covered_of_reverted⟩
  have hdag : w.dag = p.start.dag := h.dag
  refine ⟨Or.inl hdag, h.live.transaction, p.start.documents, ⟨?_, ?_, hstored.trans (congrArg some h.documents)⟩, fun _ => rfl⟩
  · show w.dag.validate (max 128 w.dag.nodes.length) = .ok ()
    rw [hdag]
    exact hp.loads
  · show w.dag.validate p.max_nodes = .ok ()
    rw [hdag]
    exact hp.bounded

/-- **A recovery of a transaction that was not committed** puts everything back; where a call fails it can be made again. -/
theorem recover_reverts (hp : p.Valid) (hopened : p.Opened held) :
    Leads p.Undoable (At (p.covered journal held)) (recover_materialization fails shown held)
      (fun _ => At (p.gone (· = p.start.documents) (· = p.start.dag))) (p.Broken fails journal held) := by
  have hg := @covered_firm p journal held
  refine leads_get hg fun w hw => ?_
  have hopen : ¬ w.state.source_transaction = some held.id := hopened.id ▸ hw.live.transaction
  rw [artifacts_ok hopened, decide_eq_false hopen]
  refine .bind (Q := fun artifacts w => At (p.covered journal held) w ∧
      artifacts = held.compiled_modules.map fun file => (artifact_path file, p.before (artifact_path file)))
    Publications.refl (.ret hg.kept fun _ h => ⟨h, rfl⟩) fun artifacts => ?_
  rintro w' ⟨hw', rfl⟩
  revert w'
  show Leads p.Undoable (At (p.covered journal held)) _ _ _
  refine .bind (Q := fun w => p.Undoing journal held (· = w.disk.files)) Publications.refl (.get hg.kept fun w w' h hpublications =>
    ⟨hg.kept.stable w w' h hpublications, hpublications.unpublished.files⟩) fun observed => ?_
  have hundone := @reverted_firm p journal held
  refine .bind (Q := fun _ => p.Undoing journal held (· = observed.disk.files)) Publications.refl
    (.ofExcept (undoing_kept _) (fun _ _ _ h => h) fun e herror w h => ?_) fun _ => ?_
  · rw [validate_covered (w := observed) (h.2 ▸ h.1.files.1.memory)] at herror
    cases herror
  refine .bind Publications.refl (leads_undo hp hopened observed) fun _ => ?_
  refine .bind Publications.refl (failing_outline hundone.kept fun _ hfails h => ⟨⟨_, hfails⟩, h.covered_of_reverted⟩) fun _ => ?_
  exact .modify hundone.kept (gone_firm _ _).kept fun w h => { h with files := ⟨h.files.2.1, rfl⟩ }

/-- A committed transaction: only its journal is dropped. -/
theorem recover_keeps {files : Dict String Text} (hopened : p.Opened journal) (hfinished : p.Finished files)
    (hsettled : ∀ path entry, journal.writes.get? path = some entry → files.get? path = entry.after) :
    Leads p.Committed (At (p.committed journal files)) (recover_materialization fails shown journal)
      (fun _ => At (p.closed journal files)) fun w => (∃ step, fails step = true) ∧ At (p.committed journal files) w := by
  have hg := committed_firm_plan hopened hfinished hsettled
  have hclosed : (p.closed journal files).Firm p.Committed := closed_firm_plan hfinished
  refine leads_get hg fun w hw => ?_
  have hname : w.state.source_transaction = some journal.id := hopened.id ▸ hw.live.transaction
  rw [artifacts_ok hopened, decide_eq_true hname]
  refine .bind (Q := fun _ => At (p.committed journal files)) Publications.refl (.ret hg.kept fun _ h => h) fun _ => ?_
  refine leads_get hg fun w hw => ?_
  have hvalid : journal.validate true w = .ok () := by
    refine forM_eq_ok.mpr fun item hitem => if_pos ?_
    rw [hw.files.1]
    exact beq_iff_eq.mpr (hsettled item.1 item.2 ((Dict.get?_eq_some_iff ..).mpr hitem))
  rw [hvalid]
  refine .bind (Q := fun _ => At (p.committed journal files)) Publications.refl (.ret hg.kept fun _ h => h) fun _ => ?_
  refine .bind (Q := fun _ => At (p.committed journal files)) Publications.refl (.ret hg.kept fun _ h => h) fun _ => ?_
  refine .bind Publications.refl (failing_outline hg.kept fun _ hfails h => ⟨⟨_, hfails⟩, h⟩) fun _ => ?_
  exact .modify hg.kept hclosed.kept fun w h => { h with files := ⟨h.files.1, rfl⟩ }

/-! ### The handler of a failed transaction -/

/-- How a transaction that raised leaves the graph and the documents in memory, when neither its journal nor its name is left. -/
def Plan.Over (p : Plan) (w : World) : Prop :=
  w.disk.journal = none → w.disk.state_json.source_transaction ≠ some p.id → w.documents = p.start.documents ∧ w.dag = p.start.dag

theorem At.over_of_journal {w : World} (h : At (p.covered journal held) w) : p.Over w := fun hjournal => by
  rw [h.files.2] at hjournal
  cases hjournal

theorem At.over_of_gone {w : World} (h : At (p.gone (· = p.start.documents) (· = p.start.dag)) w) : p.Over w :=
  fun _ _ => ⟨h.documents, h.dag⟩

theorem over_of_after {w : World} (h : p.After w.disk.state_json.point) : p.Over w := fun _ hname => absurd h.transaction hname

section Handler
variable {R : Disk → Prop} {g : Stage}

/-- What failed in a recovery is raised. -/
theorem leads_rollback_failed {P : World → Prop} (hP : Prog.Kept Publications (OnDisk R) P) (e : Raised) :
    Leads R P (rollback_failed e) (fun _ _ => False) P := by
  cases e <;> exact .raise hP fun _ h => h

theorem leads_record_rolled_back (hg : g.Firm R) {change : Change} (hchange : change.path.isSome = true) :
    Leads R (At g) (record_rolled_back change) (fun _ => At g) (At g) := by
  refine leads_get hg fun w hw => ?_
  refine .bind (Q := fun _ => At g) Publications.refl (.ofExcept hg.kept (fun _ _ _ h => h) fun _ _ _ h => h) fun i => ?_
  cases i with
  | none =>
    refine leads_changes hg fun changes h other hother => ?_
    rcases List.mem_append.mp hother with hother | hother
    · exact h other hother
    · obtain rfl := List.mem_singleton.mp hother
      exact hchange
  | some i =>
    refine leads_changes hg fun changes h => ?_
    exact named_modify h i fun _ hprior => hprior

theorem leads_record_staged (hg : g.Firm R) {staged : List Change} (hstaged : Named staged) :
    Leads R (At g) (staged.forM record_rolled_back) (fun _ => At g) (At g) := by
  induction staged with
  | nil => exact .ret hg.kept fun _ h => h
  | cons change staged ih =>
    obtain ⟨hchange, hrest⟩ := List.forall_mem_cons.mp hstaged
    exact .bind Publications.refl (leads_record_rolled_back hg hchange) fun _ => ih hrest

/-- Once the journal is gone, the handler notes what was staged and raises again. -/
theorem leads_noted (hg : g.Open R) {staged : List Change} (hstaged : Named staged) (rolled_back : Bool) (error : Raised) :
    Leads R (At g) (do
      staged.forM record_rolled_back
      publish rolled_back shown
      .raise error) (fun (_ : Unit) _ => False) (At g) := by
  refine .bind Publications.refl (leads_record_staged hg.firm hstaged) fun _ => ?_
  refine .bind (Q := fun _ => At g) Publications.refl ((publish_outline (Φ := True) hg.firm hg.tidy hg.free hg.live (fun _ => trivial)
    shown).mono (fun _ h => h) (fun _ _ h => h) fun _ _ h => h.2) fun _ => .raise hg.firm.kept fun _ h => h

end Handler

/-- A guarantee about what a crash leaves may say less. -/
theorem leads_mono {R R' : Disk → Prop} {α : Type} {P : World → Prop} {x : Controller α} {Q : α → World → Prop} {E : World → Prop}
    (h : Leads R P x Q E) (hR : ∀ disk, R disk → R' disk) : Leads R' P x Q E :=
  fun w hw => (h w hw).weaken fun _ => hR _

theorem named_filter {changes : List Change} (h : Named changes) (keep : Change → Bool) : Named (changes.filter keep) :=
  fun change hchange => h change (List.mem_filter.mp hchange).1

/-- **A failed transaction is rolled back where it failed**, or it can be by the next resume. -/
theorem leads_roll_back (hp : p.Valid) {fails : PlanFails} (opening : MaterializationJournal) (error : Raised) :
    Leads p.Left p.Failed (roll_back_plan fails shown opening error) (fun _ _ => False) p.Over := by
  rintro w₀ (h₀ | ⟨hopened, hfinished, hsettled, h₀⟩)
  · rename_i journal held
    have hg : (p.failed journal held).Firm p.Undoable := failed_firm_plan
    have hk : Prog.Kept Publications (OnDisk p.Undoable) (At (p.covered journal held)) := covered_firm.kept
    have hgone : (p.gone (· = p.start.documents) (· = p.start.dag)).Open p.Undoable := ⟨gone_firm _ _, rfl, rfl, fun _ h => h⟩
    refine leads_mono (R := p.Undoable) (P := At (p.failed journal held)) (leads_get hg fun w hw => ?_) (fun _ => Or.inl) w₀ h₀
    rw [show w.planning = some held from hw.planning]
    refine .bind (Q := fun _ => At (p.gone (· = p.start.documents) (· = p.start.dag))) Publications.refl
      (.handle (E := fun _ => At (p.covered journal held)) Publications.refl ?_ fun e => ?_) fun _ => ?_
    · exact (recover_reverts hp hw.files.1.memory.opened).mono (fun _ h => { h with planning := trivial }) (fun _ _ h => h) fun _ _ h => h.2
    · exact (leads_rollback_failed hk e).mono (fun _ h => h) (fun _ _ h => h.elim) fun _ _ h => h.over_of_journal
    · exact (leads_noted hgone (named_filter (hw.live_named rfl) _) _ error).mono (fun _ h => h) (fun _ _ h => h) fun _ _ h => h.over_of_gone
  · rename_i journal files
    have hg := sealed_firm hopened hfinished hsettled
    have hk := (committed_firm_plan hopened hfinished hsettled).kept
    have hclosed : (p.closed journal files).Open p.Committed := ⟨closed_firm_plan hfinished, rfl, rfl, fun _ h => h⟩
    refine leads_mono (R := p.Committed) (P := At (p.sealed journal files)) (leads_get hg fun w hw => ?_) (fun _ => Or.inr) w₀ h₀
    rw [show w.planning = some journal from hw.planning]
    refine .bind (Q := fun _ => At (p.closed journal files)) Publications.refl
      (.handle (E := fun _ => At (p.committed journal files)) Publications.refl ?_ fun e => ?_) fun _ => ?_
    · exact (recover_keeps hopened hfinished hsettled).mono (fun _ h => { h with planning := trivial }) (fun _ _ h => h) fun _ _ h => h.2
    · exact (leads_rollback_failed hk e).mono (fun _ h => h) (fun _ _ h => h.elim) fun _ _ h => over_of_after h.saved
    · exact (leads_noted hclosed (named_filter (hw.live_named rfl) _) _ error).mono (fun _ h => h) (fun _ _ h => h) fun _ _ h => over_of_after h.saved

/-- **In a planning transaction every crash leaves the way back, or the finished transaction.** -/
theorem plan_transaction_leads (hp : p.Valid) {fails : PlanFails} (hfails : ∀ part, fails.commit part = false) :
    Leads p.Left (fun w => At p.fresh w ∧ w.state = p.start.state) (plan_transaction p.C p.size p fails shown)
      (fun _ w => ∃ journal files, p.Finished files ∧ At (p.closed journal files) w) p.Over := by
  have hg := @fresh_firm p
  have hover (w : World) (h : At p.fresh w) : p.Over w := fun _ _ => ⟨h.documents, h.dag⟩
  have hstart : Prog.Kept Publications (OnDisk p.Left) fun w => At p.fresh w ∧ w.state = p.start.state :=
    ⟨hg.kept.stable.and (stable_unpublished fun w w' h hsame => hsame.state.trans h), fun w h => hg.kept.inside w h.1⟩
  refine .bind (Q := fun _ w => At p.fresh w ∧ w.state = p.start.state) Publications.refl ?_ fun _ => ?_
  · refine .bind (Q := fun _ w => At p.fresh w ∧ w.state = p.start.state) Publications.refl
      (.get hstart fun w w' h hpublications => hstart.stable w w' h hpublications) fun w => ?_
    exact .ofExcept hstart (fun _ _ _ h => h) fun _ _ w h => hover w h.1
  refine .bind Publications.refl ((leads_begin _).mono (fun _ h => h) (fun _ _ h => h) fun _ w h => hover w h) fun journal => ?_
  exact .handle (E := fun _ => p.Failed) Publications.refl (leads_materialize hp hfails) fun e =>
    (leads_roll_back hp journal e).mono (fun _ h => h) (fun _ _ h => h.elim) fun _ _ h => h

end LeanFlow.Transactions
