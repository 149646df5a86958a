import LeanFlow.Transactions.Proof
import Mathlib.Logic.Relation

/-! What holds of the files and of the state while a transaction is open.

A `Stage` says what is on disk, what the live `state` dictionary would publish, and
what the controller holds in memory. Other threads may publish in every stage; they
keep it as long as what they copy is what the stage lets `state.json` be. -/
namespace LeanFlow.Transactions
open General Goals Source

/-! ### Publications -/

def Journal.id : Journal → String
  | .proof journal => journal.id
  | .materialization journal => journal.id

/-- The state dictionary names the open transaction, but not yet its graph and sources. -/
def World.torn (w : World) : Bool :=
  (w.disk.journal.map Journal.id).any fun id => w.state.source_transaction == some id &&
    (w.state.dag != w.dag || w.state.source_checkpoint != some w.documents)

/-- The record a publication copies next was cleared and is not filled again. -/
def World.cleared (w : World) : Bool :=
  w.publishing.any fun p => (w.state.changes[p.changes.length]?).any (·.path.isNone)

/-- No publication begins on a torn state or copies a cleared record. -/
def PublishStep.clean (step : PublishStep) (w : World) : Bool :=
  match step with
  | .begin _ => !w.torn
  | .record => !w.cleared
  | _ => true

/-- Publications by other threads. -/
def Publications : World → World → Prop :=
  Relation.ReflTransGen fun w w' => ∃ step : PublishStep, step.clean w = true ∧ step.apply w = some w'

theorem Publications.refl (w : World) : Publications w w := Relation.ReflTransGen.refl

theorem Publications.trans (w w' w'' : World) (h : Publications w w') (h' : Publications w' w'') :
    Publications w w'' := Relation.ReflTransGen.trans h h'

/-! ### Stages -/

/-- What decides a resume. -/
structure Point where
  dag : Dag
  checkpoint : Option Documents
  transaction : Option String

def State.point (state : State) : Point := ⟨state.dag, state.source_checkpoint, state.source_transaction⟩

def Saved.point (saved : Saved) : Point := ⟨saved.dag, saved.source_checkpoint, saved.source_transaction⟩

theorem point_publication (state : State) (shown : Node → NodeStatus) :
    (state.publication shown).point = state.point := by
  rw [Saved.point, dag_publication]
  rfl

/-- Every record names its path. -/
def Named (changes : List Change) : Prop := ∀ change ∈ changes, change.path.isSome = true

/-- A checkpoint that was written. -/
def Written (disk : Disk) (checkpoint : Option Documents) : Prop := ∀ d, checkpoint = some d → d ∈ disk.checkpoints

structure Stage where
  files : Dict String Text → Option Journal → Prop
  saved : Point → Prop
  live : Point → Prop
  documents : Documents → Prop
  dag : Dag → Prop
  planning : Option MaterializationJournal → Prop := fun _ => True
  tidy : Bool := true
  locked : Bool := false

structure At (g : Stage) (w : World) : Prop where
  files : g.files w.disk.files w.disk.journal
  saved : g.saved w.disk.state_json.point
  saved_named : Named w.disk.state_json.changes
  saved_written : Written w.disk w.disk.state_json.source_checkpoint
  live : g.live w.state.point
  live_named : g.tidy = true → Named w.state.changes
  live_written : Written w.disk w.state.source_checkpoint
  documents : g.documents w.documents
  dag : g.dag w.dag
  planning : g.planning w.planning
  stored : Written w.disk w.stored
  locked : w.locked = g.locked
  alone : g.locked = true → w.publishing = none
  publishing : ∀ p, w.publishing = some p →
    g.saved p.copied.point ∧ Named p.changes ∧ Written w.disk p.copied.source_checkpoint

variable {g : Stage} {w w' : World}

theorem At.named_append (h : At g w) {p : Publishing} (hp : w.publishing = some p) {change : Change}
    (hchange : change.path.isSome = true) : Named (p.changes ++ [change]) := by
  intro c hc
  rcases List.mem_append.mp hc with hc | hc
  · exact (h.publishing p hp).2.1 c hc
  · rwa [List.mem_singleton.mp hc]

/-- A publication keeps a stage, when the live state may be published wherever it may be copied. -/
theorem stable_at (hlive : ∀ w, At g w → w.locked = false → w.torn = false → g.saved w.state.point) :
    Prog.Stable Publications (At g) := by
  intro w w' h hpublications
  induction hpublications with
  | refl => exact h
  | tail _ hstep ih =>
    obtain ⟨step, hclean, happly⟩ := hstep
    rename_i w₁ w₂ _
    cases hp : w₁.publishing with
    | none =>
      cases step with
      | begin shown =>
        simp only [PublishStep.apply, hp] at happly
        split at happly
        · cases happly
        · rename_i hunlocked
          obtain rfl := Option.some.inj happly
          have hfree : w₁.locked = false := by simpa using hunlocked
          refine { ih with alone := fun hlocked => ?_, publishing := fun p heq => ?_ }
          · rw [← ih.locked, hfree] at hlocked
            cases hlocked
          · obtain rfl := Option.some.inj heq
            refine ⟨hlive w₁ ih hfree (by simpa [PublishStep.clean] using hclean), ?_, ih.live_written⟩
            exact fun c hc => absurd hc List.not_mem_nil
      | list => simp [PublishStep.apply, hp] at happly
      | record => simp [PublishStep.apply, hp] at happly
      | write => simp [PublishStep.apply, hp] at happly
      | fail => simp [PublishStep.apply, hp] at happly
    | some p =>
      have hunlocked (hlocked : g.locked = true) : False := by
        rw [ih.alone hlocked] at hp
        cases hp
      obtain ⟨hsaved, hnamed, hwritten⟩ := ih.publishing p hp
      cases step with
      | begin shown => simp [PublishStep.apply, hp] at happly
      | list =>
        simp only [PublishStep.apply, hp] at happly
        split at happly
        · obtain rfl := Option.some.inj happly
          refine { ih with alone := fun hlocked => (hunlocked hlocked).elim, publishing := fun q heq => ?_ }
          obtain rfl := Option.some.inj heq
          exact ⟨hsaved, hnamed, hwritten⟩
        · cases happly
      | record =>
        simp only [PublishStep.apply, hp] at happly
        split at happly
        · obtain ⟨change, hchange, rfl⟩ := Option.map_eq_some_iff.mp happly
          have hpath : change.path.isSome = true := by
            simpa [PublishStep.clean, World.cleared, hp, hchange, Option.isSome_iff_ne_none] using hclean
          refine { ih with alone := fun hlocked => (hunlocked hlocked).elim, publishing := fun q heq => ?_ }
          obtain rfl := Option.some.inj heq
          exact ⟨hsaved, ih.named_append hp hpath, hwritten⟩
        · cases happly
      | write =>
        simp only [PublishStep.apply, hp] at happly
        split at happly
        · obtain rfl := Option.some.inj happly
          refine { ih with
            saved := by rw [World.save, point_publication]; exact hsaved
            saved_named := hnamed
            saved_written := hwritten
            alone := fun _ => rfl
            publishing := fun q heq => ?_ }
          cases heq
        · cases happly
      | fail =>
        simp only [PublishStep.apply, hp] at happly
        obtain rfl := Option.some.inj happly
        refine { ih with alone := fun _ => rfl, publishing := fun q heq => ?_ }
        cases heq

/-- A publication writes `state.json` and its own copies, and nothing else. -/
theorem apply_eq {step : PublishStep} (h : step.apply w = some w') :
    ∃ saved publishing, w' = { w.save saved with publishing := publishing } := by
  cases hp : w.publishing with
  | none =>
    cases step with
    | begin shown =>
      simp only [PublishStep.apply, hp] at h
      split at h
      · cases h
      · exact ⟨w.disk.state_json, _, (Option.some.inj h).symm⟩
    | list | record | write | fail => simp [PublishStep.apply, hp] at h
  | some p =>
    cases step with
    | begin shown => simp [PublishStep.apply, hp] at h
    | list =>
      simp only [PublishStep.apply, hp] at h
      split at h
      · exact ⟨w.disk.state_json, _, (Option.some.inj h).symm⟩
      · cases h
    | record =>
      simp only [PublishStep.apply, hp] at h
      split at h
      · obtain ⟨change, -, rfl⟩ := Option.map_eq_some_iff.mp h
        exact ⟨w.disk.state_json, _, rfl⟩
      · cases h
    | write =>
      simp only [PublishStep.apply, hp] at h
      split at h
      · exact ⟨_, none, (Option.some.inj h).symm⟩
      · cases h
    | fail =>
      simp only [PublishStep.apply, hp] at h
      exact ⟨w.disk.state_json, none, (Option.some.inj h).symm⟩

/-- What publications leave alone. -/
structure Unpublished (w w' : World) : Prop where
  documents : w'.documents = w.documents
  dag : w'.dag = w.dag
  state : w'.state = w.state
  planning : w'.planning = w.planning
  stored : w'.stored = w.stored
  files : w'.disk.files = w.disk.files
  checkpoints : w'.disk.checkpoints = w.disk.checkpoints
  journal : w'.disk.journal = w.disk.journal

theorem Publications.unpublished (h : Publications w w') : Unpublished w w' := by
  induction h with
  | refl => exact ⟨rfl, rfl, rfl, rfl, rfl, rfl, rfl, rfl⟩
  | tail _ hstep ih =>
    obtain ⟨step, -, happly⟩ := hstep
    obtain ⟨saved, publishing, rfl⟩ := apply_eq happly
    exact ⟨ih.documents, ih.dag, ih.state, ih.planning, ih.stored, ih.files, ih.checkpoints, ih.journal⟩

theorem stable_unpublished {P : World → Prop} (h : ∀ w w', P w → Unpublished w w' → P w') :
    Prog.Stable Publications P := fun w w' hP hpublications => h w w' hP hpublications.unpublished

end LeanFlow.Transactions
