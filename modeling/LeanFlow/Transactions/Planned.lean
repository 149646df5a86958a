import LeanFlow.Transactions.Planning

/-! A planning transaction is done or undone, wherever it is cut off.

Before the commit the durable state does not name the transaction, and the journal leads
back to the files the transaction found; after it the files are as the new documents say. -/
namespace LeanFlow.Transactions
open General Goals Source

namespace Plan
variable (p : Plan)

/-! ### What a crash leaves -/

/-- A graph of before the transaction: in memory, in the state or in `state.json`. -/
def Earlier (dag : Dag) : Prop := dag = p.start.dag ∨ dag = p.start.state.dag ∨ dag = p.start.disk.state_json.dag

/-- The state before the commit. -/
structure Before (q : Point) : Prop where
  dag : p.Earlier q.dag
  transaction : q.transaction ≠ some p.id
  loads : ∃ documents, q.Loads p.max_nodes documents ∧ ∀ path, documents.get? path = p.start.documents.get? path

/-- The committed state. -/
structure After (q : Point) : Prop where
  dag : q.dag = p.dag
  checkpoint : q.checkpoint = some p.documents
  transaction : q.transaction = some p.id

/-- Every step has been made. -/
structure Finished (files : Dict String Text) : Prop where
  current : p.Current p.documents files
  files : ∀ path, files.get? path = (applied p.steps p.start.disk.files).get? path

/-- A crash before the commit. -/
structure Undoable (disk : Disk) : Prop where
  files : disk.journal = none ∧ p.Undone disk.files ∨
    ∃ journal, disk.journal = some (.materialization journal) ∧ p.Covers journal disk.files
  saved : p.Before disk.state_json.point
  named : Named disk.state_json.changes
  written : Written disk disk.state_json.source_checkpoint

/-- A crash after it. -/
structure Committed (disk : Disk) : Prop where
  files : p.Finished disk.files
  journal : disk.journal = none ∨ ∃ journal, disk.journal = some (.materialization journal) ∧ p.Opened journal ∧
    ∀ path entry, journal.writes.get? path = some entry → disk.files.get? path = entry.after
  saved : p.After disk.state_json.point
  named : Named disk.state_json.changes
  written : Written disk disk.state_json.source_checkpoint

/-- Whatever a crash leaves. -/
def Left (disk : Disk) : Prop := p.Undoable disk ∨ p.Committed disk

/-! ### Stages -/

/-- Nothing has begun. -/
def fresh : Stage where
  files := fun files journal => files = p.start.disk.files ∧ journal = none
  saved := p.Before
  live := p.Before
  documents := (· = p.start.documents)
  dag := (· = p.start.dag)

variable (journal held : MaterializationJournal) (files : Dict String Text)

/-- The journals and the files between two actions. -/
def opened (documents : Documents → Prop) (dag : Dag → Prop) : Stage where
  files := fun files' journal' => files' = files ∧ journal' = some (.materialization journal)
  saved := p.Before
  live := p.Before
  documents := documents
  dag := dag
  planning := (· = some held)

/-- Files of which both journals lead back. -/
def covered : Stage where
  files := fun files journal' => p.Held journal held files ∧ journal' = some (.materialization journal)
  saved := p.Before
  live := p.Before
  documents := fun _ => True
  dag := fun _ => True

/-- The same, in the process whose transaction failed. -/
def failed : Stage := { p.covered journal held with planning := (· = some held) }

/-- The transaction is in the state, and may be published. -/
def named (live : Point → Prop) : Stage where
  files := fun files' journal' => files' = files ∧ journal' = some (.materialization journal)
  saved := fun q => p.Before q ∨ p.After q
  live := live
  documents := (· = p.documents)
  dag := (· = p.dag)
  planning := (· = some journal)

/-- The transaction is published, and its journal still there. -/
def sealed : Stage := { p.named journal files p.After with saved := p.After }

def committed : Stage := { p.sealed journal files with planning := fun _ => True }

def closed : Stage := { p.committed journal files with files := fun files' journal' => files' = files ∧ journal' = none }

end Plan

open Plan

variable {p : Plan} {journal held : MaterializationJournal} {files : Dict String Text} {shown : Node → NodeStatus}

/-! ### Firm stages -/

theorem fresh_firm : p.fresh.Firm p.Left where
  live _ h _ _ := h.live
  decided disk hfiles hsaved hnamed hwritten :=
    Or.inl ⟨Or.inl ⟨hfiles.2, fun path => Or.inl (by rw [hfiles.1]; rfl)⟩, hsaved, hnamed, hwritten⟩

theorem opened_firm (h : p.Covers journal files) (held : MaterializationJournal) (documents : Documents → Prop) (dag : Dag → Prop) :
    (p.opened journal held files documents dag).Firm p.Left where
  live _ h _ _ := h.live
  decided _ hfiles hsaved hnamed hwritten :=
    Or.inl ⟨Or.inr ⟨journal, hfiles.2, hfiles.1.symm ▸ h⟩, hsaved, hnamed, hwritten⟩

theorem covered_firm : (p.covered journal held).Firm p.Undoable where
  live _ h _ _ := h.live
  decided _ hfiles hsaved hnamed hwritten := ⟨Or.inr ⟨journal, hfiles.2, hfiles.1.disk⟩, hsaved, hnamed, hwritten⟩

theorem failed_firm_plan : (p.failed journal held).Firm p.Undoable where
  live _ h _ _ := h.live
  decided := covered_firm.decided

/-- What may be live between the id of the transaction and its commit. -/
def Plan.Naming (p : Plan) (q : Point) : Prop := q.transaction = some p.id

theorem committed_of_naming {w : World} (hid : journal.id = p.id) (hjournal : w.disk.journal = some (.materialization journal))
    (hlive : p.Naming w.state.point) (hdocuments : w.documents = p.documents) (hdag : w.dag = p.dag) (htorn : w.torn = false) :
    p.After w.state.point := by
  have hname : w.state.source_transaction = some journal.id := hid.symm ▸ hlive
  simp only [World.torn, hjournal, Option.map_some, Option.any_some, Journal.id, hname, beq_self_eq_true, Bool.true_and,
    Bool.or_eq_false_iff, bne_eq_false_iff_eq] at htorn
  exact ⟨htorn.1.trans hdag, htorn.2.trans (congrArg some hdocuments), hlive⟩

theorem named_firm (hcovers : p.Covers journal files) (hfinished : p.Finished files)
    (hsettled : ∀ path entry, journal.writes.get? path = some entry → files.get? path = entry.after) {live : Point → Prop}
    (hlive : ∀ q, live q → p.Before q ∨ p.Naming q) : (p.named journal files live).Firm p.Left where
  live w h _ htorn := (hlive _ h.live).imp id fun hnaming =>
    committed_of_naming hcovers.opened.id h.files.2 hnaming h.documents h.dag htorn
  decided disk hfiles hsaved hnamed hwritten := by
    obtain ⟨rfl, hjournal⟩ := hfiles
    rcases hsaved with hsaved | hsaved
    · exact Or.inl ⟨Or.inr ⟨journal, hjournal, hcovers⟩, hsaved, hnamed, hwritten⟩
    · exact Or.inr ⟨hfinished, Or.inr ⟨journal, hjournal, hcovers.opened, hsettled⟩, hsaved, hnamed, hwritten⟩

theorem sealed_firm (hopened : p.Opened journal) (hfinished : p.Finished files)
    (hsettled : ∀ path entry, journal.writes.get? path = some entry → files.get? path = entry.after) :
    (p.sealed journal files).Firm p.Committed where
  live _ h _ _ := h.live
  decided disk hfiles hsaved hnamed hwritten := by
    obtain ⟨rfl, hjournal⟩ := hfiles
    exact ⟨hfinished, Or.inr ⟨journal, hjournal, hopened, hsettled⟩, hsaved, hnamed, hwritten⟩

theorem committed_firm_plan (hopened : p.Opened journal) (hfinished : p.Finished files)
    (hsettled : ∀ path entry, journal.writes.get? path = some entry → files.get? path = entry.after) :
    (p.committed journal files).Firm p.Committed where
  live _ h _ _ := h.live
  decided := (sealed_firm hopened hfinished hsettled).decided

theorem closed_firm_plan (hfinished : p.Finished files) : (p.closed journal files).Firm p.Committed where
  live _ h _ _ := h.live
  decided disk hfiles hsaved hnamed hwritten := by
    obtain ⟨rfl, hjournal⟩ := hfiles
    exact ⟨hfinished, Or.inl hjournal, hsaved, hnamed, hwritten⟩

/-! ### Failures -/

/-- Where a transaction raises: both journals lead back, or it is published and only its journal is left. -/
inductive Plan.Failed (p : Plan) (w : World) : Prop where
  | undoable {journal held : MaterializationJournal} (h : At (p.failed journal held) w)
  | published {journal : MaterializationJournal} {files : Dict String Text} (hopened : p.Opened journal) (hfinished : p.Finished files)
      (hsettled : ∀ path entry, journal.writes.get? path = some entry → files.get? path = entry.after)
      (h : At (p.sealed journal files) w)

theorem At.failed_plan {documents : Documents → Prop} {dag : Dag → Prop} {w : World} (h : At (p.opened journal held files documents dag) w)
    (hheld : p.Held journal held files) : p.Failed w :=
  .undoable { h with
    files := ⟨h.files.1.symm ▸ hheld, h.files.2⟩
    documents := trivial
    dag := trivial }

/-- A call that fails in an open transaction. -/
theorem leads_failing_plan (hheld : p.Held journal held files) (documents : Documents → Prop) (dag : Dag → Prop) (fails : Bool) (e : Raised) :
    Leads p.Left (At (p.opened journal held files documents dag)) (failing fails e)
      (fun _ => At (p.opened journal held files documents dag)) p.Failed :=
  (leads_failing (opened_firm hheld.disk held documents dag) fails e).mono (fun _ h => h) (fun _ _ h => h) fun _ _ h => h.failed_plan hheld

/-! ### The steps -/

section Steps
variable {done : List PlanStep}

/-- The stage between two steps. -/
abbrev Plan.between (p : Plan) (journal held : MaterializationJournal) (files : Dict String Text) : Stage :=
  p.opened journal held files (· = p.start.documents) (· = p.start.dag)

/-- Some journal and some files, between two steps. -/
def Plan.Made (p : Plan) (done : List PlanStep) (journal : MaterializationJournal) (w : World) : Prop :=
  ∃ files, p.Rest done journal files ∧ At (p.between journal journal files) w

theorem leads_write (hp : p.Valid) {path : String} {after expected_before : Option Text} {require_absent : Bool}
    {fails : WriteStep → Bool} (h : p.Rest done journal files)
    (hnext : p.Next done (.write path after expected_before require_absent fails)) :
    Leads p.Left (At (p.between journal journal files))
      (materialized_write p.C p.size fails journal path after expected_before require_absent)
      (p.Made (done ++ [.write path after expected_before require_absent fails])) p.Failed := by
  have hg := opened_firm h.covers journal (· = p.start.documents) (· = p.start.dag)
  refine leads_get hg fun w hw => ?_
  rw [hw.files.1]
  refine .ite (fun _ => .raise hg.kept fun _ h' => h'.failed_plan h.covers.self) fun _ => ?_
  refine .bind (Q := fun entry w => At (p.between journal journal files) w ∧
    journal.entry p.C path (files.get? path) expected_before require_absent = .ok entry) Publications.refl
    (.ofExcept hg.kept (fun _ hentry _ h => ⟨h, hentry⟩) fun _ _ _ h' => h'.failed_plan h.covers.self) fun entry => ?_
  rintro w ⟨hw, hentry⟩
  have hannounced : p.Held journal (journal.announce path entry after) files := h.announced hp hnext hentry
  have hwrite := h.write hp hnext hentry
  have hg₁ := opened_firm h.covers (journal.announce path entry after) (· = p.start.documents) (· = p.start.dag)
  have hg₂ := opened_firm hannounced.memory (journal.announce path entry after) (· = p.start.documents) (· = p.start.dag)
  have hg₃ := opened_firm hwrite.covers (journal.announce path entry after) (· = p.start.documents) (· = p.start.dag)
  revert w
  show Leads p.Left (At (p.between journal journal files)) _ _ _
  refine .bind (Q := fun _ => At (p.between journal (journal.announce path entry after) files)) Publications.refl
    (.modify hg.kept hg₁.kept fun w h => { h with planning := rfl }) fun _ => ?_
  refine .ite (fun _ => .raise hg₁.kept fun _ h => h.failed_plan hannounced) fun _ => ?_
  refine .bind Publications.refl (leads_failing_plan hannounced _ _ _ _) fun _ => ?_
  refine .bind (Q := fun _ => At (p.between (journal.announce path entry after) (journal.announce path entry after) files))
    Publications.refl (.modify hg₁.kept hg₂.kept fun w h => { h with files := ⟨h.files.1, rfl⟩ }) fun _ => ?_
  refine leads_get hg₂ fun w hw => .ite (fun _ => .raise hg₂.kept fun _ h => h.failed_plan hannounced.memory.self) fun _ => ?_
  refine .bind Publications.refl (leads_failing_plan hannounced.memory.self _ _ _ _) fun _ => ?_
  refine .bind (Q := fun _ => At (p.between (journal.announce path entry after) (journal.announce path entry after)
    (put_file path after files))) Publications.refl (leads_modify hg₂ hg₃ fun w h => ?_) fun _ => .ret hg₃.kept fun w h => ⟨_, hwrite, h⟩
  rw [put_eq]
  exact { h with files := ⟨congrArg (put_file path after) h.files.1, h.files.2⟩ }

theorem leads_compile (hp : p.Valid) {file : String} {fails : Bool} {artifact : Option Text} (h : p.Rest done journal files)
    (hnext : p.Next done (.compile file fails artifact)) :
    Leads p.Left (At (p.between journal journal files)) (plan_step p.C p.size journal (.compile file fails artifact))
      (p.Made (done ++ [.compile file fails artifact])) p.Failed := by
  have hg := opened_firm h.covers journal (· = p.start.documents) (· = p.start.dag)
  have hcompile := h.compile hp hnext
  have hrecorded := h.recorded hp hnext
  obtain ⟨recorded, hrecord⟩ : ∃ recorded, recorded = journal.record file (files.get? (artifact_path file)) := ⟨_, rfl⟩
  rw [← hrecord] at hcompile hrecorded
  have hg₁ := opened_firm h.covers recorded (· = p.start.documents) (· = p.start.dag)
  have hg₂ := opened_firm hrecorded.memory recorded (· = p.start.documents) (· = p.start.dag)
  have hg₃ := opened_firm hcompile.covers recorded (· = p.start.documents) (· = p.start.dag)
  refine .bind (Q := fun journal' w => At (p.between journal' journal' files) w ∧ journal' = recorded)
    Publications.refl (leads_get hg fun w hw => ?_) fun journal' => ?_
  · rw [hw.files.1]
    refine .ite (fun _ => .raise hg.kept fun _ h' => h'.failed_plan h.covers.self) fun _ => ?_
    rw [show MaterializationJournal.mk _ _ _ _ _ _ _ _ = recorded from hrecord.symm]
    refine .bind (Q := fun _ => At (p.between journal recorded files)) Publications.refl
      (.modify hg.kept hg₁.kept fun w h => { h with planning := rfl }) fun _ => ?_
    refine .ite (fun _ => .raise hg₁.kept fun _ h => h.failed_plan hrecorded) fun _ => ?_
    refine .bind Publications.refl (leads_failing_plan hrecorded _ _ _ _) fun _ => ?_
    exact .bind (Q := fun _ => At (p.between recorded recorded files)) Publications.refl
      (.modify hg₁.kept hg₂.kept fun w h => { h with files := ⟨h.files.1, rfl⟩ }) fun _ => .ret hg₂.kept fun w h => ⟨h, rfl⟩
  · rintro w ⟨hw, rfl⟩
    revert w
    show Leads p.Left (At (p.between journal' journal' files)) _ _ _
    cases artifact with
    | none => exact .ret hg₂.kept fun w h => ⟨_, hcompile, h⟩
    | some artifact =>
      refine .bind (Q := fun _ => At (p.between journal' journal' (files.set (artifact_path file) artifact))) Publications.refl
        (leads_modify hg₂ hg₃ fun w h => ?_) fun _ => .ret hg₃.kept fun w h => ⟨_, hcompile, h⟩
      exact { h with files := ⟨congrArg (fun files : Dict String Text => files.set (artifact_path file) artifact) h.files.1, h.files.2⟩ }

/-- **One step** keeps the way back. -/
theorem leads_step (hp : p.Valid) {step : PlanStep} (h : p.Rest done journal files) (hnext : p.Next done step) :
    Leads p.Left (At (p.between journal journal files)) (plan_step p.C p.size journal step) (p.Made (done ++ [step])) p.Failed := by
  have hg := opened_firm h.covers journal (· = p.start.documents) (· = p.start.dag)
  cases step with
  | write path after expected_before require_absent fails => exact leads_write hp h hnext
  | compile file fails artifact => exact leads_compile hp h hnext
  | change f =>
    obtain ⟨rest, hsteps⟩ := hnext
    have hnamed := hp.named (.change f) (hsteps ▸ List.mem_append_right _ (List.mem_cons_self ..)) f rfl
    exact .bind (Q := fun _ => At (p.between journal journal files)) Publications.refl (leads_changes hg hnamed) fun _ =>
      .ret hg.kept fun w hw => ⟨files, h.skip rfl rfl, hw⟩
  | publish fails shown =>
    refine .bind (Q := fun _ => At (p.between journal journal files)) Publications.refl ((publish_outline (Φ := True) hg rfl rfl (fun _ h => h)
      (fun _ => trivial) shown).mono (fun _ h => h) (fun _ _ h => h) fun _ _ h' => h'.2.failed_plan h.covers.self) fun _ =>
        .ret hg.kept fun w hw => ⟨files, h.skip rfl rfl, hw⟩
  | call raised =>
    cases raised with
    | none => exact .ret hg.kept fun w hw => ⟨files, h.skip rfl rfl, hw⟩
    | some raised => exact .raise hg.kept fun _ h' => h'.failed_plan h.covers.self

/-- **All steps.** -/
theorem leads_steps (hp : p.Valid) {rest : List PlanStep} (hsteps : p.steps = done ++ rest) :
    Leads p.Left (p.Made done journal) (rest.foldlM (plan_step p.C p.size) journal) (p.Made p.steps) p.Failed := by
  induction rest generalizing done journal with
  | nil =>
    rw [List.append_nil] at hsteps
    rintro w ⟨files, h, hw⟩
    exact Prog.Outline.ret (opened_firm h.covers journal (· = p.start.documents) (· = p.start.dag)).kept
      (fun w hw => ⟨files, hsteps ▸ h, hw⟩) w hw
  | cons step rest ih =>
    rintro w ⟨files, h, hw⟩
    rw [List.foldlM_cons]
    exact Prog.Outline.bind Publications.refl (leads_step hp h ⟨rest, hsteps⟩)
      (fun journal' => ih (by rw [hsteps, List.append_assoc]; rfl)) w hw

end Steps

/-! ### The whole transaction -/

/-- The journal of a transaction that has written nothing. -/
def Plan.opening (p : Plan) : MaterializationJournal where
  id := p.id
  before_dag := p.start.dag
  before_documents := p.start.documents
  before_changes := p.start.state.changes
  before_retired := p.start.state.retired_nodes

theorem opening_rest : p.Rest [] p.opening p.start.disk.files where
  covers := {
    opened := ⟨rfl, rfl, rfl, rfl, rfl, fun _ h => absurd h List.not_mem_nil, nofun⟩
    entries := nofun
    others := fun _ _ _ => Or.inl rfl }
  settled := nofun
  files _ := rfl
  written _ := ⟨fun h => absurd h List.not_mem_nil, nofun⟩
  compiled _ h := absurd h List.not_mem_nil

/-- A transaction that could not begin has changed nothing. -/
theorem leads_begin (fails : Bool) :
    Leads p.Left (fun w => At p.fresh w ∧ w.state = p.start.state) (begin_materialization fails p.id) (p.Made []) (At p.fresh) := by
  have hg := @fresh_firm p
  have hg₁ := opened_firm (@opening_rest p).covers p.opening (· = p.start.documents) (· = p.start.dag)
  have hlogged : Stage.Firm p.Left { p.between p.opening p.opening p.start.disk.files with planning := fun _ => True } :=
    ⟨fun _ h _ _ => h.live, hg₁.decided⟩
  have hstart : Prog.Kept Publications (OnDisk p.Left) fun w => At p.fresh w ∧ w.state = p.start.state :=
    ⟨hg.kept.stable.and (stable_unpublished fun w w' h hsame => hsame.state.trans h), fun w h => hg.kept.inside w h.1⟩
  refine .bind (Q := fun w w' => At p.fresh w' ∧ At p.fresh w ∧ w.state = p.start.state) Publications.refl
    (.get hstart fun w w' h hpublications => ⟨hg.kept.stable w w' h.1 hpublications, h⟩) fun w => ?_
  rintro w' ⟨hw', hw, hstate⟩
  revert w'
  show Leads p.Left (At p.fresh) _ _ _
  refine .ite (fun _ => .raise hg.kept fun _ h => h) fun _ => ?_
  refine .bind Publications.refl (leads_failing hg _ _) fun _ => ?_
  have hopening : (MaterializationJournal.mk p.id .empty w.dag w.documents w.state.changes w.state.retired_nodes [] .empty) = p.opening := by
    rw [show w.dag = p.start.dag from hw.dag, show w.documents = p.start.documents from hw.documents, hstate]
    rfl
  rw [hopening]
  refine .bind (Q := fun _ => At { p.between p.opening p.opening p.start.disk.files with planning := fun _ => True }) Publications.refl
    (.modify hg.kept hlogged.kept fun w h => { h with files := ⟨h.files.1, rfl⟩ }) fun _ => ?_
  refine .bind (Q := fun _ => At (p.between p.opening p.opening p.start.disk.files)) Publications.refl
    (.modify hlogged.kept hg₁.kept fun w h => { h with planning := rfl }) fun _ => ?_
  exact .ret hg₁.kept fun w hw => ⟨_, opening_rest, hw⟩

/-- The new graph and the new documents, in memory only. -/
abbrev Plan.installed (p : Plan) (journal : MaterializationJournal) (files : Dict String Text) : Stage :=
  p.opened journal journal files (· = p.documents) (· = p.dag)

theorem leads_install (hp : p.Valid) (hcovers : p.Covers journal files) (fails : PlanFails) :
    Leads p.Left (At (p.between journal journal files)) (install_plan p.C p fails)
      (fun _ w => At (p.installed journal files) w ∧ p.Current p.documents files) p.Failed := by
  have hg := opened_firm hcovers journal (· = p.start.documents) (· = p.start.dag)
  have hg₁ := opened_firm hcovers journal (· = p.documents) (· = p.start.dag)
  have hg₂ := opened_firm hcovers journal (· = p.documents) (· = p.dag)
  refine leads_get hg fun w hw => ?_
  refine .bind (Q := fun _ w => At (p.between journal journal files) w ∧ p.Current p.documents files) Publications.refl
    (.ofExcept hg.kept (fun _ hsources w' hw' => ⟨hw', ?_⟩) fun _ _ _ h => h.failed_plan hcovers.self) fun _ => ?_
  · rw [← hw.files.1]
    exact (sources_iff p.C).mp hsources
  rintro w ⟨hw, hcurrent⟩
  revert w
  show Leads p.Left (At (p.between journal journal files)) _ _ _
  refine .bind Publications.refl (leads_failing_plan hcovers.self _ _ _ _) fun _ => ?_
  refine .bind (Q := fun _ => At (p.opened journal journal files (· = p.documents) (· = p.start.dag))) Publications.refl
    (.modify hg.kept hg₁.kept fun w h => { h with documents := rfl }) fun _ => ?_
  refine leads_get hg₁ fun w hw => ?_
  refine .bind (Q := fun _ => At (p.opened journal journal files (· = p.documents) (· = p.start.dag))) Publications.refl
    (.ofExcept hg₁.kept (fun _ _ _ h => h) fun _ _ _ h => h.failed_plan hcovers.self) fun _ => ?_
  refine .bind (Q := fun _ => At (p.opened journal journal files (· = p.documents) (· = p.start.dag))) Publications.refl
    (.modify hg₁.kept hg₁.kept fun w h => { h with live := h.live }) fun _ => ?_
  refine .bind (Q := fun _ => At (p.installed journal files)) Publications.refl
    (.modify hg₁.kept hg₂.kept fun w h => { h with dag := rfl }) fun _ => ?_
  exact (leads_changes hg₂ hp.unstaged).mono (fun _ h => h) (fun _ _ h => ⟨h, hcurrent⟩) fun _ _ h => h

/-- What publishes the new graph publishes all of it, when its checkpoint can be written. -/
theorem leads_commit (hcovers : p.Covers journal files) (hfinished : p.Finished files)
    (hsettled : ∀ path entry, journal.writes.get? path = some entry → files.get? path = entry.after) {fails : StorePart → Bool}
    (hfails : ∀ part, fails part = false) (unlink_fails : Bool) :
    Leads p.Left (At (p.installed journal files)) (commit_materialization fails unlink_fails shown)
      (fun _ => At (p.closed journal files)) p.Failed := by
  have hg := opened_firm hcovers journal (· = p.documents) (· = p.dag)
  have hnaming : (p.named journal files p.Naming).Firm p.Left := named_firm hcovers hfinished hsettled fun _ => Or.inr
  have hlate : (p.named journal files fun q => p.Naming q ∨ p.After q).Firm p.Left :=
    named_firm hcovers hfinished hsettled fun q h => Or.inr (h.elim id After.transaction)
  have hsealed : (p.sealed journal files).Firm p.Left := (sealed_firm hcovers.opened hfinished hsettled).mono fun _ => Or.inr
  have hclosed : (p.closed journal files).Firm p.Left := (closed_firm_plan hfinished).mono fun _ => Or.inr
  refine leads_get hg fun w hw => ?_
  rw [hw.files.2]
  refine .bind (Q := fun _ => At (p.named journal files p.Naming)) Publications.refl
    (.modify hg.kept hnaming.kept fun w h => ?_) fun _ => ?_
  · exact { h with
      saved := Or.inl h.saved
      live := congrArg some hcovers.opened.id
      publishing := fun q hq => ⟨Or.inl (h.publishing q hq).1, (h.publishing q hq).2⟩ }
  refine .bind (Q := fun _ => At (p.sealed journal files)) Publications.refl ((@persist_outline p.Left (p.named journal files p.Naming)
    False p.After p.After _ hnaming hsealed hlate rfl rfl (fun w h hstored => ?_) (fun _ => Or.inl) (fun _ => Or.inr) (fun _ h => h)
    fails (fun part h => ?_) shown).mono (fun _ h => h) (fun _ _ h => h) fun _ _ h => h.1.elim) fun _ => ?_
  · exact ⟨h.dag, hstored.trans (congrArg some h.documents), h.live⟩
  · rw [hfails part] at h
    cases h
  refine .bind Publications.refl ((leads_failing hsealed _ _).mono (fun _ h => h) (fun _ _ h => h) fun _ _ h =>
    .published hcovers.opened hfinished hsettled h) fun _ => ?_
  exact .modify hsealed.kept hclosed.kept fun w h => { h with
    files := ⟨h.files.1, rfl⟩
    planning := trivial }

/-- **Between the journal and the end of a transaction every crash leaves the way back**, and so does every failure. -/
theorem leads_materialize (hp : p.Valid) {fails : PlanFails} (hfails : ∀ part, fails.commit part = false) :
    Leads p.Left (p.Made [] journal) (do
      let _ ← p.steps.foldlM (plan_step p.C p.size) journal
      install_plan p.C p fails
      commit_materialization fails.commit fails.unlink shown)
      (fun _ w => ∃ journal files, p.Finished files ∧ At (p.closed journal files) w) p.Failed := by
  refine .bind Publications.refl (leads_steps hp rfl) fun journal => ?_
  rintro w ⟨files, h, hw⟩
  refine Prog.Outline.bind Publications.refl (leads_install hp h.covers fails) (fun _ => ?_) w hw
  rintro w ⟨hw, hcurrent⟩
  have hfinished : p.Finished files := ⟨hcurrent, h.files⟩
  exact (leads_commit h.covers hfinished h.settled hfails _).mono (fun _ h => h) (fun _ _ h => ⟨journal, files, hfinished, h⟩)
    (fun _ _ h => h) w hw

end LeanFlow.Transactions
