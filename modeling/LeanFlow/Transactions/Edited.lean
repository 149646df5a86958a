import LeanFlow.Transactions.Crashes

/-! A resume over sources that were edited from outside.

Recovery owns a file only while it holds what the journal recorded for it. Otherwise the
resume raises, wherever it had got to, and the files, the journal and the state are as they were. -/
namespace LeanFlow.Transactions
open General Goals Source

variable {C : CharClass} {sha256 : Text → String} {max_nodes : Nat} {shown : Node → NodeStatus} {disk : Disk}

/-- Every file of the journal holds what was recorded for it. -/
def Disk.Recorded (sha256 : Text → String) (disk : Disk) : Journal → Prop
  | .proof journal => ∃ content, disk.files.get? journal.before_document.path = some content ∧
      (sha256 content = journal.before_sha256 ∨ sha256 content = journal.after_sha256)
  | .materialization journal => ∀ path entry, journal.writes.get? path = some entry →
      entry.admits (decide (disk.state_json.source_transaction = some journal.id)) (disk.files.get? path) = true

/-- The files are as they were, and the state in memory is that of the files. -/
structure Loaded (disk : Disk) (w : World) : Prop where
  same : w.disk = disk
  transaction : w.state.source_transaction = disk.state_json.source_transaction

theorem loaded_kept : Prog.Kept Eq (fun w : World => w.disk = disk) (Loaded disk) := ⟨Prog.stable_eq _, fun _ h => h.same⟩

/-- What raises over the files as they are. -/
abbrev Refuses (disk : Disk) (x : Controller Unit) : Prop :=
  Prog.Outline Eq (fun w => w.disk = disk) (Loaded disk) x (fun _ _ => False) fun _ _ => True

theorem refuses_install {journal : ProofJournal} (h : ¬ disk.Recorded sha256 (.proof journal)) (fails : RecoverStep → Bool) :
    Refuses disk (recover_install C sha256 fails shown journal) := by
  refine .bind (Q := fun w w' => Loaded disk w' ∧ w = w') Eq.refl (.get loaded_kept fun w w' hw hsame => ⟨hsame ▸ hw, hsame⟩) fun w => ?_
  rintro w' ⟨hw, rfl⟩
  cases hfile : w.disk.files.get? journal.before_document.path with
  | none => exact Prog.Outline.raise loaded_kept (fun _ _ => trivial) w hw
  | some content =>
    have hconflict : sha256 content ≠ journal.before_sha256 ∧ sha256 content ≠ journal.after_sha256 := by
      refine not_or.mp fun hknown => h ⟨content, ?_, hknown⟩
      rw [← hw.same]
      exact hfile
    dsimp only
    rw [if_pos hconflict]
    exact Prog.Outline.raise loaded_kept (fun _ _ => trivial) w hw

theorem refuses_materialization {journal : MaterializationJournal} (h : ¬ disk.Recorded sha256 (.materialization journal))
    (fails : RecoverStep → Bool) : Refuses disk (recover_materialization fails shown journal) := by
  have hread (w w' : World) (hw : Loaded disk w) (hsame : w = w') : Loaded disk w' ∧ w = w' := ⟨hsame ▸ hw, hsame⟩
  refine .bind (Q := fun w w' => Loaded disk w' ∧ w = w') Eq.refl (.get loaded_kept hread) fun first => ?_
  rintro w' ⟨hfirst, rfl⟩
  refine Prog.Outline.bind (Q := fun _ => Loaded disk) Eq.refl (.ofExcept loaded_kept (fun _ _ _ h => h) fun _ _ _ _ => trivial)
    (fun artifacts => ?_) first hfirst
  refine .bind (Q := fun w w' => Loaded disk w' ∧ w = w') Eq.refl (.get loaded_kept hread) fun observed => ?_
  rintro w' ⟨hobserved, rfl⟩
  refine Prog.Outline.bind (Q := fun _ _ => False) Eq.refl (.ofExcept loaded_kept (fun _ hvalid _ _ => h fun path entry hentry => ?_)
    fun _ _ _ _ => trivial) (fun _ _ hfalse => hfalse.elim) observed hobserved
  have hitem := forM_eq_ok.mp hvalid (path, entry) ((Dict.get?_eq_some_iff ..).mp hentry)
  rw [hfirst.transaction, hobserved.same] at hitem
  split at hitem
  · assumption
  · cases hitem

/-- **Files that were edited from outside are left alone**: wherever the resume is cut off, nothing was written, and it
does not end. -/
theorem edited_refused {journal : Journal} (hjournal : disk.journal = some journal) (h : ¬ disk.Recorded sha256 journal)
    {moves : List (Prog.Move Empty)} {x : Controller Unit} {w : World}
    (hrun : Prog.drive nofun moves (restore C sha256 max_nodes shown, disk.resume) = some (x, w)) : w.disk = disk ∧ x ≠ .ret () := by
  have hloaded (result : Except Raised Unit) : Prog.Outline Eq (fun w => w.disk = disk) (Loaded disk) (.ofExcept result) (fun _ => Loaded disk)
      fun _ _ => True := .ofExcept loaded_kept (fun _ _ _ h => h) fun _ _ _ _ => trivial
  have hrecover : Refuses disk (recover_proof C sha256 (fun _ => false) shown) := by
    refine .bind (Q := fun w w' => Loaded disk w' ∧ w = w') Eq.refl (.get loaded_kept fun w w' hw hsame => ⟨hsame ▸ hw, hsame⟩) fun w => ?_
    rintro w' ⟨hw, rfl⟩
    rw [hw.same, hjournal]
    cases journal with
    | proof journal => exact refuses_install h _ w hw
    | materialization journal => exact refuses_materialization h _ w hw
  have hspec : Prog.Spec Eq (fun w => w.disk = disk) (fun _ _ => False) (fun _ _ => True) (restore C sha256 max_nodes shown) disk.resume := by
    refine .act_alone rfl (.act_alone rfl ?_)
    refine Prog.Outline.bind Eq.refl (hloaded _) (fun _ => .bind Eq.refl (hloaded _) fun _ => ?_) _ ⟨rfl, rfl⟩
    refine .bind (Q := fun _ => Loaded disk) Eq.refl (.ofExcept loaded_kept (fun _ _ _ h => h) fun _ _ _ _ => trivial) fun documents => ?_
    refine .bind (Q := fun _ => Loaded disk) Eq.refl (.modify loaded_kept loaded_kept fun w h => ⟨h.same, h.transaction⟩) fun _ => ?_
    exact .bind Eq.refl hrecover fun _ _ hfalse => hfalse.elim
  have hend := hspec.drive Eq.refl (fun _ _ _ => Eq.trans) nofun hrun
  refine ⟨hend.inv Eq.refl, ?_⟩
  rintro rfl
  exact (hend w rfl).2

/-- The source was edited while the process was gone. -/
def sampleEdited : Disk :=
  { sampleRest.disk with
    files := Dict.empty.set "A.lean" "theorem t : True := by trivial".toList
    journal := some (.proof {
      id := "1"
      path := "A.lean"
      node_id := "n"
      candidate := ["trivial".toList]
      before_document := sampleSource
      before_change := none
      before_sha256 := String.ofList sampleScene.beforeText
      after_sha256 := String.ofList sampleScene.afterText }) }

theorem sample_refused : ∃ (x : Controller Unit) (w : World),
    Prog.drive (κ := Empty) nofun (List.replicate 5 .act) (sampleResume, sampleEdited.resume) = some (x, w) ∧
    w.disk = sampleEdited ∧ x ≠ .ret () := by
  have hends : (Prog.drive (κ := Empty) nofun (List.replicate 5 .act) (sampleResume, sampleEdited.resume)).isSome = true := by
    decide +kernel
  obtain ⟨⟨x, w⟩, hrun⟩ := Option.isSome_iff_exists.mp hends
  refine ⟨x, w, hrun, edited_refused rfl ?_ hrun⟩
  rintro ⟨content, hfile, hknown⟩
  obtain rfl := Option.some.inj hfile
  exact absurd hknown (by decide +kernel)

end LeanFlow.Transactions
