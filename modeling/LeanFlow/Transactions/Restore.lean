import LeanFlow.Transactions.Proof

/-! Resuming from files without a journal. -/
namespace LeanFlow.Transactions
open General Goals Source

variable (C : CharClass) (sha256 : Text → String)

/-- The world of a resume that found no journal. -/
def Disk.restored (disk : Disk) (documents : Documents) : World where
  documents := documents
  dag := disk.state_json.dag
  state := {
    dag := disk.state_json.dag
    source_checkpoint := disk.state_json.source_checkpoint
    source_transaction := disk.state_json.source_transaction
    changes := disk.state_json.changes
    retired_nodes := disk.state_json.retired_nodes
    planning_request := disk.state_json.planning_request }
  disk := disk

/-- The files are a graph and sources a resume accepts. -/
structure Disk.Loads (disk : Disk) (max_nodes : Nat) (documents : Documents) : Prop where
  journal : disk.journal = none
  dag : disk.state_json.dag.validate (max 128 disk.state_json.nodes.length) = .ok ()
  bounded : disk.state_json.dag.validate max_nodes = .ok ()
  documents : load_documents disk disk.state_json = .ok documents

/-- Such a resume ends as its check of the sources does. -/
theorem calm_restore {disk : Disk} {max_nodes : Nat} {documents : Documents} (h : disk.Loads max_nodes documents)
    (shown : Node → NodeStatus) : Prog.calm (restore C sha256 max_nodes shown) disk.resume =
      ((disk.restored documents).sources C, disk.restored documents) := by
  have hjournal : disk.resume.disk.journal = none := h.journal
  simp only [restore, checked, Prog.calm_bind, Prog.calm_get, Prog.calm_modify, Prog.calm_ofExcept,
    Disk.resume, h.dag, h.bounded, h.documents, Except.mapError, recover_proof, h.journal, assert_sources]
  rfl

/-- A resume from these files passes `_assert_sources` just when every source is as documented. -/
theorem sources_iff {w : World} : w.sources C = .ok () ↔ ∀ path document, w.documents.get? path = some document →
    ∃ text, document.render C [] = .ok text ∧ w.disk.files.get? document.path = some text := by
  rw [World.sources, forM_eq_ok]
  constructor
  · intro h path document hdocument
    have hitem := h (path, document) ((Dict.get?_eq_some_iff ..).mp hdocument)
    split at hitem
    · cases hitem
    · rename_i text htext
      split at hitem
      · exact ⟨text, htext, ‹_›⟩
      · cases hitem
  · rintro h ⟨path, document⟩ hitem
    obtain ⟨text, htext, hfile⟩ := h path document ((Dict.get?_eq_some_iff ..).mpr hitem)
    simp only [htext, hfile, if_true]

end LeanFlow.Transactions
