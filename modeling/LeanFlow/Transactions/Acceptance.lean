import LeanFlow.Transactions.Outlines

/-! An acceptance, stage by stage.

Up to the transaction id the durable state and the live one name the graph and the sources before;
the journal says what the source may be. From the id on they may name those after, under the same
journal. A crash in any stage can be decided. -/
namespace LeanFlow.Transactions
open General Goals Source

/-! ### The scene -/

/-- One acceptance: the submission, and what the controller had before it. -/
structure Scene where
  C : CharClass
  sha256 : Text → String
  sub : Submission
  base : Documents
  graph : Dag
  max_nodes : Nat
  before : SourceDocument
  beforeText : Text
  afterText : Text

namespace Scene
variable (s : Scene)

def file : String := s.sub.node.file

def after : SourceDocument := proved_document s.sub s.before

structure Valid : Prop where
  known : s.base.get? s.file = some s.before
  paths : ∀ path document, s.base.get? path = some document → document.path = path
  renders : s.before.render s.C [] = .ok s.beforeText
  /-- No document is a compiled module. -/
  apart : ∀ path document, s.base.get? path = some document → path ≠ artifact_path s.file
  loads : s.graph.validate (max 128 s.graph.nodes.length) = .ok ()
  validates : s.graph.validate s.max_nodes = .ok ()
  node : ∃ node, s.graph.by_id s.sub.node.id = some node

/-- The graph's structure never changes, and the node's status is known. -/
structure Graph (status : NodeStatus → Prop) (dag : Dag) : Prop where
  shapes : dag.shapes = s.graph.shapes
  roots : dag.roots = s.graph.roots
  status : ∀ node, dag.by_id s.sub.node.id = some node → status node.status

/-- The same documents, in any order. -/
def Same (documents documents' : Documents) : Prop := ∀ path, documents.get? path = documents'.get? path

/-- Documents that differ from the ones before in one file at most. -/
def Beside (documents : Documents) : Prop := ∀ path, path ≠ s.file → documents.get? path = s.base.get? path

/-- A state that an undo may start from. -/
structure Open (p : Point) : Prop where
  dag : s.Graph (fun _ => True) p.dag
  checkpoint : ∃ documents, p.checkpoint = some documents ∧ s.Beside documents
  transaction : p.transaction ≠ some s.sub.transaction_id

structure Unproved (p : Point) : Prop where
  dag : s.Graph (· ≠ .proved) p.dag
  checkpoint : ∃ documents, p.checkpoint = some documents ∧ Same documents s.base
  transaction : p.transaction ≠ some s.sub.transaction_id

structure Proved (p : Point) : Prop where
  dag : s.Graph (· = .proved) p.dag
  checkpoint : ∃ documents, p.checkpoint = some documents ∧ Same documents (s.base.set s.file s.after)
  transaction : p.transaction = some s.sub.transaction_id
  renders : s.after.render s.C [] = .ok s.afterText

/-- The journal of this acceptance. -/
structure Journaled (journal : ProofJournal) : Prop where
  id : journal.id = s.sub.transaction_id
  node : journal.node_id = s.sub.node.id
  document : journal.before_document = s.before
  before : journal.before_sha256 = s.sha256 s.beforeText
  after : journal.after_sha256 = s.sha256 s.afterText
  named : ∀ change, journal.before_change = some change → change.path.isSome = true

/-- What a resume can tell apart: the journal, the source and the durable state. -/
inductive Decided : Option Journal → Text → Point → Prop where
  | idle {p : Point} (h : s.Unproved p) : Decided none s.beforeText p
  | opened {journal : ProofJournal} {p : Point} (hjournal : s.Journaled journal) (h : s.Open p) :
      Decided (some (.proof journal)) s.beforeText p
  | written {journal : ProofJournal} {p : Point} (hjournal : s.Journaled journal) (h : s.Open p) :
      Decided (some (.proof journal)) s.afterText p
  | committed {journal : ProofJournal} {p : Point} (hjournal : s.Journaled journal) (h : s.Proved p) :
      Decided (some (.proof journal)) s.afterText p
  | closed {p : Point} (h : s.Proved p) : Decided none s.afterText p

/-- The canonical sources of the other documents. -/
def Others (files : Dict String Text) : Prop :=
  ∀ path document, path ≠ s.file → s.base.get? path = some document →
    ∃ text, document.render s.C [] = .ok text ∧ files.get? path = some text

/-- The journal, and the canonical sources. -/
structure Sources (journal : Option Journal) (content : Text → Prop) (files : Dict String Text) (journal' : Option Journal) :
    Prop where
  journal : journal' = journal
  content : ∃ text, files.get? s.file = some text ∧ content text
  others : s.Others files

/-- A crash here leaves files that a resume can decide. -/
structure Recoverable (disk : Disk) : Prop where
  decided : ∃ text, disk.files.get? s.file = some text ∧ s.Decided disk.journal text disk.state_json.point
  others : s.Others disk.files
  named : Named disk.state_json.changes
  written : Written disk disk.state_json.source_checkpoint

/-! ### Stages -/

/-- The proof is in the document. -/
def Changed (documents : Documents) : Prop := Same documents (s.base.set s.file s.after)

/-- Nothing of the acceptance is in the files. -/
def idle (documents : Documents → Prop) : Stage where
  files := s.Sources none (· = s.beforeText)
  saved := s.Unproved
  live := s.Unproved
  documents := documents
  dag := s.Graph (· ≠ .proved)

variable (journal : ProofJournal)

/-- The journal is written. -/
def journaled : Stage where
  files := s.Sources (some (.proof journal)) fun text => text = s.beforeText ∨ text = s.afterText
  saved := s.Unproved
  live := s.Unproved
  documents := s.Changed
  dag := s.Graph (· ≠ .proved)

/-- The source after is written. -/
def installed : Stage := { s.journaled journal with files := s.Sources (some (.proof journal)) (· = s.afterText) }

/-- An installation that failed: all that is known is that it can be undone. -/
def failed : Stage where
  files := s.Sources (some (.proof journal)) fun text => text = s.beforeText ∨ text = s.afterText
  saved := s.Open
  live := s.Open
  documents := s.Beside
  dag := s.Graph fun _ => True

/-- The rollback has written the source before. -/
def undone (documents : Documents → Prop) (status : NodeStatus → Prop) : Stage where
  files := s.Sources (some (.proof journal)) (· = s.beforeText)
  saved := s.Open
  live := s.Open
  documents := documents
  dag := s.Graph status

/-- It has persisted what was. -/
def restored : Stage :=
  { s.undone journal (Same · s.base) (· ≠ .proved) with saved := s.Unproved, live := s.Unproved }

/-- The graph in memory has the proof. -/
def claimed : Stage := { s.installed journal with dag := s.Graph (· = .proved) }

/-- So may whatever is published from here on. -/
def proved (live : Point → Prop) : Stage where
  files := s.Sources (some (.proof journal)) (· = s.afterText)
  saved := fun p => s.Unproved p ∨ s.Proved p
  live := live
  documents := s.Changed
  dag := s.Graph (· = .proved)

/-- The id of the transaction beside the graph before. -/
def Torn (p : Point) : Prop := s.Graph (· ≠ .proved) p.dag ∧ p.transaction = some s.sub.transaction_id

def committed : Stage := { s.proved journal s.Proved with saved := s.Proved }

def closed : Stage where
  files := s.Sources none (· = s.afterText)
  saved := s.Proved
  live := s.Proved
  documents := s.Changed
  dag := s.Graph (· = .proved)

end Scene

open Scene

variable {s : Scene} {g g' : Stage} {w w' : World} {journal : ProofJournal}

/-! ### Firm stages -/

/-- A crash in a stage of one journal can be decided, when its sources and its state can. -/
theorem decided_sources {journal : Option Journal} {content : Text → Prop} {saved : Point → Prop}
    (h : ∀ text p, content text → saved p → s.Decided journal text p) (disk : Disk) (hfiles : s.Sources journal content disk.files disk.journal)
    (hsaved : saved disk.state_json.point) (hnamed : Named disk.state_json.changes)
    (hwritten : Written disk disk.state_json.source_checkpoint) : s.Recoverable disk := by
  obtain ⟨text, hfile, hcontent⟩ := hfiles.content
  exact ⟨⟨text, hfile, hfiles.journal ▸ h text _ hcontent hsaved⟩, hfiles.others, hnamed, hwritten⟩

theorem idle_firm (documents : Documents → Prop) : (s.idle documents).Firm s.Recoverable where
  live _ h _ _ := h.live
  decided := decided_sources (by
    rintro text p rfl hp
    exact .idle hp)

theorem Scene.Unproved.opened {p : Point} (h : s.Unproved p) : s.Open p := by
  obtain ⟨documents, hcheckpoint, hsame⟩ := h.checkpoint
  exact ⟨⟨h.dag.shapes, h.dag.roots, fun _ _ => trivial⟩, ⟨documents, hcheckpoint, fun path _ => hsame path⟩, h.transaction⟩

theorem journaled_firm (hjournal : s.Journaled journal) : (s.journaled journal).Firm s.Recoverable where
  live _ h _ _ := h.live
  decided := decided_sources (by
    rintro text p (rfl | rfl) hp
    · exact .opened hjournal hp.opened
    · exact .written hjournal hp.opened)

theorem installed_firm (hjournal : s.Journaled journal) : (s.installed journal).Firm s.Recoverable where
  live _ h _ _ := h.live
  decided := decided_sources (by
    rintro text p rfl hp
    exact .written hjournal hp.opened)

theorem claimed_firm (hjournal : s.Journaled journal) : (s.claimed journal).Firm s.Recoverable where
  live _ h _ _ := h.live
  decided := decided_sources (by
    rintro text p rfl hp
    exact .written hjournal hp.opened)

theorem failed_firm (hjournal : s.Journaled journal) : (s.failed journal).Firm s.Recoverable where
  live _ h _ _ := h.live
  decided := decided_sources (by
    rintro text p (rfl | rfl) hp
    · exact .opened hjournal hp
    · exact .written hjournal hp)

theorem undone_firm (hjournal : s.Journaled journal) (documents : Documents → Prop) (status : NodeStatus → Prop) :
    (s.undone journal documents status).Firm s.Recoverable where
  live _ h _ _ := h.live
  decided := decided_sources (by
    rintro text p rfl hp
    exact .opened hjournal hp)

theorem restored_firm (hjournal : s.Journaled journal) : (s.restored journal).Firm s.Recoverable where
  live _ h _ _ := h.live
  decided := decided_sources (by
    rintro text p rfl hp
    exact .opened hjournal hp.opened)

/-- A graph without the proof is not the one with it. -/
theorem Scene.Graph.ne (hs : s.Valid) {dag dag' : Dag} (h : s.Graph (· ≠ .proved) dag) (h' : s.Graph (· = .proved) dag') :
    dag ≠ dag' := by
  rintro rfl
  obtain ⟨node, hnode⟩ := hs.node
  have hshape := Dag.by_id_of_shapes h.shapes s.sub.node.id
  rw [hnode, Option.map_some] at hshape
  obtain ⟨found, hfound, -⟩ := Option.map_eq_some_iff.mp hshape
  exact h.status found hfound (h'.status found hfound)

/-- While the id stands beside the graph before, the state is torn. -/
theorem torn_of_torn (hs : s.Valid) (hjournal : s.Journaled journal) (hopen : w.disk.journal = some (.proof journal))
    (hlive : s.Torn w.state.point) (hdag : s.Graph (· = .proved) w.dag) : w.torn = true := by
  have hne : w.state.dag ≠ w.dag := Graph.ne hs hlive.1 hdag
  have hdiffer : (w.state.dag != w.dag) = true := bne_iff_ne.mpr hne
  have hid : w.state.source_transaction = some journal.id := hlive.2.trans (congrArg some hjournal.id.symm)
  simp [World.torn, hopen, Journal.id, hid, hdiffer]

theorem proved_firm (hs : s.Valid) (hjournal : s.Journaled journal) {live : Point → Prop}
    (hlive : ∀ p, live p → s.Unproved p ∨ s.Torn p ∨ s.Proved p) : (s.proved journal live).Firm s.Recoverable where
  live w h _ htorn := by
    rcases hlive _ h.live with hp | hp | hp
    · exact Or.inl hp
    · rw [torn_of_torn hs hjournal h.files.journal hp h.dag] at htorn
      cases htorn
    · exact Or.inr hp
  decided := decided_sources (by
    rintro text p rfl (hp | hp)
    · exact .written hjournal hp.opened
    · exact .committed hjournal hp)

theorem committed_firm (hjournal : s.Journaled journal) : (s.committed journal).Firm s.Recoverable where
  live _ h _ _ := h.live
  decided := decided_sources (by
    rintro text p rfl hp
    exact .committed hjournal hp)

theorem closed_firm : s.closed.Firm s.Recoverable where
  live _ h _ _ := h.live
  decided := decided_sources (by
    rintro text p rfl hp
    exact .closed hp)

/-! ### Files, records and nodes -/

/-- Compiled modules are no sources. -/
def Scene.Spares (s : Scene) (g : Stage) : Prop :=
  ∀ files files' journal, (∀ path, path ≠ artifact_path s.file → files'.get? path = files.get? path) →
    g.files files journal → g.files files' journal

theorem spares_sources (hs : s.Valid) {journal : Option Journal} {content : Text → Prop} (hg : g.files = s.Sources journal content) :
    s.Spares g := by
  intro files files' journal' hsame h
  rw [hg] at h ⊢
  obtain ⟨text, hfile, hcontent⟩ := h.content
  refine ⟨h.journal, ⟨text, (hsame _ (hs.apart _ _ hs.known)).trans hfile, hcontent⟩, fun path document hpath hdocument => ?_⟩
  obtain ⟨text, htext, hfile⟩ := h.others path document hpath hdocument
  exact ⟨text, htext, (hsame path (hs.apart path document hdocument)).trans hfile⟩

theorem leads_write_artifact (hg : g.Firm s.Recoverable) (hspares : s.Spares g) (content : Text) {E : World → Prop} :
    Leads s.Recoverable (At g) (Prog.modify (World.writeFile (artifact_path s.file) content)) (fun _ => At g) E := by
  refine leads_modify hg hg fun w h => ?_
  exact { h with files := hspares w.disk.files _ _ (fun path hpath => Dict.get?_set_ne _ _ hpath) h.files }

theorem leads_unlink_artifact (hg : g.Firm s.Recoverable) (hspares : s.Spares g) {E : World → Prop} :
    Leads s.Recoverable (At g) (Prog.modify (World.unlink (artifact_path s.file))) (fun _ => At g) E := by
  refine leads_modify hg hg fun w h => ?_
  exact { h with files := hspares w.disk.files _ _ (fun path hpath => (Dict.get?_erase ..).trans (if_neg hpath)) h.files }

theorem Scene.Sources.weaken {journal journal' : Option Journal} {content content' : Text → Prop} {files : Dict String Text}
    (h : s.Sources journal content files journal') (hcontent : ∀ text, content text → content' text) :
    s.Sources journal content' files journal' := by
  obtain ⟨text, hfile, htext⟩ := h.content
  exact { h with content := ⟨text, hfile, hcontent text htext⟩ }

/-- The canonical source is written. -/
theorem Scene.Sources.write {journal journal' : Option Journal} {content content' : Text → Prop} {files : Dict String Text}
    (h : s.Sources journal content files journal') {text : Text} (hcontent : content' text) :
    s.Sources journal content' (files.set s.file text) journal' := by
  refine ⟨h.journal, ⟨text, Dict.get?_set_self _ _ _, hcontent⟩, fun path document hpath hdocument => ?_⟩
  obtain ⟨text', htext, hfile⟩ := h.others path document hpath hdocument
  exact ⟨text', htext, (Dict.get?_set_ne _ _ hpath).trans hfile⟩

/-- Records that name their paths are searched without an error. -/
theorem find_change_named {changes : List Change} (h : Named changes) (path : String) : ∃ i, find_change path changes = .ok i := by
  induction changes with
  | nil => exact ⟨none, rfl⟩
  | cons change changes ih =>
    obtain ⟨hchange, hchanges⟩ := List.forall_mem_cons.mp h
    obtain ⟨other, hother⟩ := Option.isSome_iff_exists.mp hchange
    obtain ⟨i, hi⟩ := ih hchanges
    rw [find_change, hother]
    dsimp only
    split
    · exact ⟨_, rfl⟩
    · exact ⟨_, by rw [hi]; rfl⟩

theorem Scene.Graph.update {status status' : NodeStatus → Prop} {dag : Dag} (h : s.Graph status dag) {f : Node → Node}
    (hshape : ∀ node, (f node).shape = node.shape) (hstatus : ∀ node, status node.status → status' (f node).status) :
    s.Graph status' (dag.update s.sub.node.id f) where
  shapes := (dag.shapes_update hshape).trans h.shapes
  roots := h.roots
  status := by
    intro node hnode
    have hid (node : Node) : (f node).id = node.id := congrArg Shape.id (hshape node)
    rw [dag.by_id_update hid] at hnode
    obtain ⟨old, hold, rfl⟩ := Option.map_eq_some_iff.mp hnode
    rw [if_pos (Dag.id_of_by_id hold)]
    exact hstatus old (h.status old hold)

theorem At.node (h : At g w) {dag' : Dag → Prop} {id : String} {f : Node → Node} (hf : dag' (w.dag.update id f)) :
    At { g with dag := dag' } (w.updateNode id f) := { h with dag := hf }

end LeanFlow.Transactions
