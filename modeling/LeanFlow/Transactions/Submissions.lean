import LeanFlow.Transactions.Processes

/-! Saved candidates survive, unless a worker thread persists one that is out.

In the window between `node.candidate = []` and the end of the acceptance the status is
still `candidate`. What a worker persists then is resumed as a candidate without
replacements, which the acceptance cannot take. -/
namespace LeanFlow.Transactions
open General Goals Source Stock

section Submissions

variable (C : CharClass) (sha256 : Text → String)

/-- A node that waits for the verifier has all its replacements. -/
def AllComplete (d : Dag) : Prop := ∀ node ∈ d.nodes, node.status = .candidate → node.candidate.length = node.holes.length

/-- A resume, and the promotion after it, raise no error about the number of replacements. -/
structure Resumes (disk : Disk) : Prop where
  restarts : ∀ (max_nodes : Nat) (resumable : String → Bool) (retries : Node → Bool) (env : Environment)
    (moves : List (Prog.Move Empty)) (e : Raised) (w : World),
    Prog.drive nofun moves (restart C sha256 max_nodes resumable retries env, disk.resume) = some (.raise e, w) →
    Calculated e
  promotes : ∀ (max_nodes : Nat) (resumable : String → Bool) (retries : Node → Bool) (env : Environment)
    (moves : List (Prog.Move Empty)) (w : World),
    Prog.drive nofun moves (restart C sha256 max_nodes resumable retries env, disk.resume) =
      some (.ret (), w) →
    ∀ (research : Bool) (envs : Nat → String → Environment) (last : Environment) (moves : List (Prog.Move Worker)) (e : Raised) (w' : World),
    Prog.drive (Prog.restrict (fun (step : Worker) w => step.clean w = true) Worker.apply) moves
      (promote_candidates C sha256 research envs last, w) = some (.raise e, w') → Calculated e

variable {C sha256} in
/-- **Wherever a run in which no worker persists an exposed graph is stopped**, the saved candidates are
complete, every submission that is to be kept is saved, and a resume promotes them without miscounting. -/
theorem submissions_kept {k₀ k : Stock} {w₀ w : World} {x : Controller Unit} (h₀ : (whole k₀).At w₀)
    (h : Reached C sha256 k₀ w₀ k x w) :
    AllComplete w.disk.state_json.dag ∧
      (∀ id candidate, k.saved id = some candidate → ∃ node, w.disk.state_json.dag.by_id id = some node ∧
        (node.status = .proved ∨ node.candidate = candidate)) ∧
      Resumes C sha256 w.disk := by
  have hstored := (h.stored h₀).1
  refine ⟨fun node hnode => (hstored.saved.nodes node hnode).candidate, fun id candidate hcandidate => ?_, ?_, ?_⟩
  · obtain ⟨node, hnode⟩ : ∃ node, w.disk.state_json.dag.by_id id = some node := by
      obtain ⟨node, hmem, hid⟩ := List.mem_map.mp (hstored.saved.present id candidate hcandidate)
      refine Option.isSome_iff_exists.mp (List.find?_isSome.mpr ⟨node, hmem, ?_⟩)
      exact beq_iff_eq.mpr hid
    have hwhole := hstored.saved.nodes node (List.mem_of_find?_eq_some hnode)
    exact ⟨node, hnode, hwhole.kept candidate ((Dag.id_of_by_id hnode).symm ▸ hcandidate)⟩
  · intro max_nodes resumable retries env moves e w' hrun
    have hspec := ((restart_alone hstored).raises counts_restart _ rfl).drive Eq.refl (fun _ _ _ => Eq.trans) nofun hrun
    exact (hspec _ rfl).2.1
  · intro max_nodes resumable retries env moves w' hrun research envs last moves' e w'' hpromote
    -- Whatever is refused here, the count is right: no submission is asked to survive this promotion.
    have hreached : Reached C sha256 k₀ w₀ { k with saved := fun _ => none } (.ret ()) w' :=
      .account (h.restart hrun) rfl fun _ _ hsaved => by cases hsaved
    have hrest := hreached.stored h₀
    have hspec := (promote_candidates_promotes (fun _ => ⟨fun _ _ => rfl, fun _ _ => rfl⟩) last _ (hrest.2 rfl)).drive Workers.refl Workers.trans clean_workers
      hpromote
    exact (hspec _ (Workers.refl _)).2.1

end Submissions

/-! ### One candidate and one worker -/

def sampleNode : Node where
  id := "n"
  name := "t"
  file := "A.lean"
  statement := "t : True"
  status := .candidate
  holes := [0]
  candidate := ["trivial".toList]

def sampleSource : SourceDocument where
  path := "A.lean"
  baseline := "theorem t : True := sorry".toList

def sampleDocuments : Documents := Dict.empty.set "A.lean" sampleSource

def sampleDag : Dag := { nodes := [sampleNode], roots := ["n"] }

/-- The candidate is saved, nothing else is going on. -/
def sampleRest : World where
  documents := sampleDocuments
  dag := sampleDag
  state := { dag := sampleDag, source_checkpoint := some sampleDocuments }
  stored := some sampleDocuments
  disk := {
    files := Dict.empty.set "A.lean" sampleSource.baseline
    checkpoints := [sampleDocuments]
    source_json := sampleDocuments
    state_json := { nodes := [{ node := sampleNode }], roots := ["n"], source_checkpoint := some sampleDocuments } }

def sampleStock : Stock where
  holes _ := 1
  saved id := if id = "n" then some ["trivial".toList] else none

/-- The acceptance that follows finds nothing wrong. -/
def sampleEnvironment : Environment where
  transaction_id := "1"
  verdict := .accepted
  compiled := some []
  fails _ := false
  store_fails _ := false
  shown node := node.status

theorem sampleDag_graph : sampleStock.Graph sampleDag := by
  refine ⟨by decide, fun id candidate hcandidate => ?_, fun node hnode => ?_⟩
  · by_cases hid : id = "n"
    · exact List.mem_map.mpr ⟨sampleNode, List.mem_singleton.mpr rfl, hid.symm⟩
    · have hnone : sampleStock.saved id = none := if_neg hid
      rw [hnone] at hcandidate
      cases hcandidate
  · obtain rfl := List.mem_singleton.mp hnode
    exact ⟨rfl, Or.inr rfl, fun _ => rfl, fun candidate hcandidate => Or.inr (Option.some.inj hcandidate)⟩

theorem sampleRest_whole : (whole sampleStock).At sampleRest where
  durable := { saved := sampleDag_graph, journal := trivial, live := sampleDag_graph, copied := nofun }
  dag := sampleDag_graph
  journal := trivial

def sampleOperations : List Operation := [.promote false (fun _ _ => sampleEnvironment) sampleEnvironment]

theorem sampleOperations_respect : ∀ operation ∈ sampleOperations, sampleStock.Respects operation := by
  intro operation hoperation
  obtain rfl := List.mem_singleton.mp hoperation
  intro pass
  constructor
  · intro id hrejects
    cases hrejects
  · intro id hdrops
    cases hdrops

/-- A worker that publishes then leaves the candidate in the files. -/
theorem sample_kept : ∃ x w, Reached .ascii (fun _ => "") sampleStock sampleRest sampleStock x w ∧
    ¬ AllComplete w.dag ∧ AllComplete w.disk.state_json.dag := by
  obtain ⟨x, w, hrun, hout⟩ : ∃ x w, Prog.drive (Prog.restrict (fun (step : Worker) w => step.clean w = true)
      Worker.apply) (List.replicate 4 .act ++ [.other (.publish (.begin (·.status))), .other (.publish .list),
        .other (.publish .write)]) (work .ascii (fun _ => "") sampleOperations sampleEnvironment, sampleRest) =
        some (x, w) ∧ ¬ AllComplete w.dag := by
    refine ⟨_, _, rfl, fun hcomplete => ?_⟩
    exact absurd (hcomplete { sampleNode with candidate := [] } (List.mem_singleton.mpr rfl) rfl) (by decide)
  have hreached := Reached.work (.start) sampleOperations_respect hrun
  exact ⟨x, w, hreached, hout, (submissions_kept sampleRest_whole hreached).1⟩

/-- The files when a worker persists then. -/
def sampleLost : Disk := ((sampleRest.updateNode "n" fun node => { node with candidate := [] }).persisted (·.status)).disk

/-- The next process. -/
def sampleRestart : Controller Unit :=
  restart .ascii (fun _ => "") 128 (fun _ => false) (fun _ => false) sampleEnvironment

def samplePromotion : Controller (List String) :=
  promote_candidates .ascii (fun _ => "") false (fun _ _ => sampleEnvironment) sampleEnvironment

/-- The candidate without replacements is taken for a candidate again, and cannot be accepted. -/
theorem sampleLost_raises : (Prog.calm sampleRestart sampleLost.resume).1 = .ok () ∧
    (Prog.calm samplePromotion (Prog.calm sampleRestart sampleLost.resume).2).1 =
      .error (.value_error (miscounted sampleNode)) := by decide +kernel

/-- **A worker that persists while a candidate is out loses it**: the node is saved as a candidate without
replacements and without a journal, and the promotion of the next process raises. -/
theorem sample_lost : ∃ (moves : List (Prog.Move Worker)) (x : Controller Unit) (w : World),
    Prog.drive Worker.apply moves (work .ascii (fun _ => "") sampleOperations sampleEnvironment, sampleRest) =
      some (x, w) ∧
    w.disk.journal = none ∧ w.disk.state_json.dag.nodes = [{ sampleNode with candidate := [] }] ∧
    ∃ (moves : List (Prog.Move Empty)) (w' : World),
      Prog.drive (fun e : Empty => nomatch e) moves (sampleRestart, w.disk.resume) = some (.ret (), w') ∧
    ∃ (moves : List (Prog.Move Worker)) (w'' : World), Prog.drive Worker.apply moves (samplePromotion, w') =
      some (.raise (.value_error (miscounted sampleNode)), w'') := by
  refine ⟨List.replicate 4 .act ++ [.other (.persist (·.status))], _, _, rfl, rfl, rfl, ?_⟩
  obtain ⟨moves, hrestart⟩ := Prog.exists_calm (fun e : Empty => nomatch e) sampleRestart sampleLost.resume
  obtain ⟨moves', hpromotion⟩ := Prog.exists_calm Worker.apply samplePromotion
    (Prog.calm sampleRestart sampleLost.resume).2
  rw [sampleLost_raises.1] at hrestart
  rw [sampleLost_raises.2] at hpromotion
  exact ⟨moves, _, hrestart, moves', _, hpromotion⟩

end LeanFlow.Transactions
