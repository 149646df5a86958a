import LeanFlow.Transactions.Outlines
import LeanFlow.Transactions.Restore

/-! Resumes, one after the other.

A resume loads the graph and the documents the durable state names, recovers and checks the
sources. What it does from there on is what recovery does in the stage that was loaded; any
number of resumes may be cut off before one ends. -/
namespace LeanFlow.Transactions
open General Goals Source

variable {C : CharClass} {sha256 : Text → String} {max_nodes : Nat} {shown : Node → NodeStatus}
variable {R : Disk → Prop} {disk : Disk} {documents : Documents}

/-! ### Loading -/

/-- What a resume loads. -/
structure Point.Loads (p : Point) (max_nodes : Nat) (documents : Documents) : Prop where
  dag : p.dag.validate (max 128 p.dag.nodes.length) = .ok ()
  bounded : p.dag.validate max_nodes = .ok ()
  checkpoint : p.checkpoint = some documents

theorem load_written (hnames : disk.state_json.source_checkpoint = some documents)
    (hwritten : Written disk disk.state_json.source_checkpoint) : load_documents disk disk.state_json = .ok documents := by
  have hmem : disk.checkpoints.any (· = documents) = true :=
    List.any_eq_true.mpr ⟨documents, hwritten documents hnames, decide_eq_true rfl⟩
  simp only [load_documents, hnames, hmem, if_true]

/-- What was loaded is a stage, when the files and the durable state are one. -/
theorem at_restored {g : Stage} (hfiles : g.files disk.files disk.journal) (hsaved : g.saved disk.state_json.point)
    (hlive : g.live disk.state_json.point) (hnamed : Named disk.state_json.changes)
    (hwritten : Written disk disk.state_json.source_checkpoint) (hdocuments : g.documents documents)
    (hdag : g.dag disk.state_json.dag) (hfree : g.locked = false) (hplanning : g.planning none) :
    At g (disk.restored documents) where
  files := hfiles
  saved := hsaved
  saved_named := hnamed
  saved_written := hwritten
  live := hlive
  live_named := fun _ => hnamed
  live_written := hwritten
  documents := hdocuments
  dag := hdag
  planning := hplanning
  stored := nofun
  locked := hfree.symm
  alone := fun hlocked => by rw [hfree] at hlocked; cases hlocked
  publishing := nofun

/-- Nobody else acts in a resume: it is what recovery makes of the state that was loaded. -/
theorem restore_spec {Q : Unit → World → Prop} {E : Raised → World → Prop} (hloads : disk.state_json.point.Loads max_nodes documents)
    (hwritten : Written disk disk.state_json.source_checkpoint) (hR : R disk)
    (h : Prog.Spec Publications (OnDisk R) Q E (do
      recover_proof C sha256 (fun _ => false) shown
      assert_sources C) (disk.restored documents)) :
    Prog.Spec Eq (OnDisk R) Q E (restore C sha256 max_nodes shown) disk.resume := by
  obtain ⟨hdag, hbounded, hnames⟩ := hloads
  have hlength : disk.state_json.dag.nodes.length = disk.state_json.nodes.length := List.length_map _
  have hload := load_written hnames hwritten
  have hrest := h.narrow (S := Eq) fun w _ hw => hw ▸ Publications.refl w
  unfold restore checked
  refine .act_alone hR (.act_alone hR ?_)
  simp only [Disk.resume, Saved.point, hlength] at hdag hbounded hload ⊢
  rw [hdag, hbounded, hload]
  exact .act_alone hR hrest

/-! ### Runs -/

/-- Resumes one after the other, each cut off anywhere. -/
inductive Resumed (C : CharClass) (sha256 : Text → String) (max_nodes : Nat) (disk : Disk) : Disk → Prop where
  | refl : Resumed C sha256 max_nodes disk disk
  | cut {disk' : Disk} {shown : Node → NodeStatus} {moves : List (Prog.Move Empty)} {x : Controller Unit} {w : World}
      (h : Resumed C sha256 max_nodes disk disk')
      (hrun : Prog.drive nofun moves (restore C sha256 max_nodes shown, disk'.resume) = some (x, w)) :
      Resumed C sha256 max_nodes disk w.disk

/-- What every resume keeps, all of them keep. -/
theorem Resumed.keeps (hR : ∀ disk, R disk → ∀ shown, Prog.Spec Eq (OnDisk R) (fun _ _ => True) (fun _ _ => True)
    (restore C sha256 max_nodes shown) disk.resume) {disk disk' : Disk} (hdisk : R disk)
    (h : Resumed C sha256 max_nodes disk disk') : R disk' := by
  induction h with
  | refl => exact hdisk
  | cut _ hrun ih => exact ((hR _ ih _).drive Eq.refl (fun _ _ _ => Eq.trans) nofun hrun).inv Eq.refl

/-- Without a journal a resume writes nothing. -/
theorem restore_keeps (hjournal : disk.journal = none) (shown : Node → NodeStatus) :
    Prog.Keeps Eq (fun w => w.disk = disk) (restore C sha256 max_nodes shown) := by
  have hP := Prog.stable_eq fun w : World => w.disk = disk
  have hrecover : Prog.Keeps Eq (fun w => w.disk = disk) (recover_proof C sha256 (fun _ => false) shown) := by
    refine .act hP (fun _ h => h) fun w hw => ?_
    have hnone : w.disk.journal = none := hw ▸ hjournal
    dsimp only [Prog.bind]
    rw [hnone]
    exact .ret hP _
  refine .bind Eq.refl (.get hP) fun w => .bind Eq.refl (.modify hP fun _ h => h) fun _ => ?_
  refine .bind Eq.refl (.ofExcept hP _) fun _ => .bind Eq.refl (.ofExcept hP _) fun _ => .bind Eq.refl (.ofExcept hP _) fun documents => ?_
  refine .bind Eq.refl (.modify hP fun _ h => h) fun _ => .bind Eq.refl hrecover fun _ => ?_
  exact .bind Eq.refl (.get hP) fun _ => .ofExcept hP _

theorem Resumed.eq {disk disk' : Disk} (h : Resumed C sha256 max_nodes disk disk') (hjournal : disk.journal = none) :
    disk' = disk := by
  induction h with
  | refl => rfl
  | cut _ hrun ih => exact (restore_keeps hjournal _).drive Eq.refl (fun _ _ _ => Eq.trans) nofun ih hrun

/-- Such a resume ends over the same files. -/
theorem calm_disk (hjournal : disk.journal = none) {r : Except Raised Unit} {w : World}
    (hcalm : Prog.calm (restore C sha256 max_nodes shown) disk.resume = (r, w)) : w.disk = disk := by
  rcases (restore_keeps hjournal shown disk.resume rfl).calm Eq.refl with ⟨_, w', hcalm', hdisk⟩ | ⟨_, w', hcalm', hdisk⟩
  · rw [hcalm'] at hcalm
    exact (Prod.mk.inj hcalm).2 ▸ hdisk
  · rw [hcalm'] at hcalm
    exact (Prod.mk.inj hcalm).2 ▸ hdisk

/-- A resume that raises nothing. -/
theorem restore_calm {P : World → Prop} (h : Prog.Spec Eq (OnDisk R) (fun _ => P) (fun _ _ => False)
    (restore C sha256 max_nodes shown) disk.resume) :
    ∃ w, Prog.calm (restore C sha256 max_nodes shown) disk.resume = (.ok (), w) ∧ P w := by
  rcases h.calm Eq.refl with ⟨⟨⟩, w, hcalm, hw⟩ | ⟨_, _, _, hfalse⟩
  · exact ⟨w, hcalm, hw⟩
  · exact hfalse.elim

theorem clean_publications (step : PublishStep) (w w' : World)
    (h : Prog.restrict (fun (step : PublishStep) w => step.clean w = true) PublishStep.apply step w = some w') : Publications w w' := by
  rw [Prog.restrict] at h
  split at h
  · exact Relation.ReflTransGen.single ⟨step, ‹_›, h⟩
  · cases h

theorem assert_sources_ends {g : Stage} (hg : g.Firm R) (hsources : ∀ w, At g w → w.sources C = .ok ()) :
    Leads R (At g) (assert_sources C) (fun _ => At g) fun _ => False := by
  refine leads_get hg fun w hw => ?_
  rw [hsources w hw]
  exact .ret hg.kept fun _ h => h

end LeanFlow.Transactions
