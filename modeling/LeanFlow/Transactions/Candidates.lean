import LeanFlow.Transactions.Promotion
import Mathlib.Logic.Relation

/-! No candidate is lost.

Every graph that is written keeps the candidates it should: the live one when the
controller persists, and the one a worker thread persists unless it meets a node
whose candidate was just taken out. -/
namespace LeanFlow.Transactions
open General Goals Source

/-- How many holes each node has, and the submissions that are to be kept. -/
structure Stock where
  holes : String → Nat
  saved : String → Option (List Text)

namespace Stock
variable (k : Stock)

structure Whole (node : Node) : Prop where
  holes : node.holes.length = k.holes node.id
  count : node.candidate = [] ∨ node.candidate.length = node.holes.length
  candidate : node.status = .candidate → node.candidate.length = node.holes.length
  kept : ∀ candidate, k.saved node.id = some candidate → node.status = .proved ∨ node.candidate = candidate

structure Graph (dag : Dag) : Prop where
  unique : (dag.nodes.map (·.id)).Nodup
  present : ∀ id candidate, k.saved id = some candidate → id ∈ dag.nodes.map (·.id)
  nodes : ∀ node ∈ dag.nodes, k.Whole node

/-- A candidate that may stand in a node. -/
structure Fits (id : String) (candidate : List Text) : Prop where
  count : candidate.length = k.holes id
  saved : ∀ other, k.saved id = some other → other = candidate

/-- A journal a recovery may follow. -/
def Sound : Option Journal → Prop
  | none => True
  | some (.proof journal) => k.Fits journal.node_id journal.candidate
  | some (.materialization journal) => k.Graph journal.before_dag

/-- The files of a run. -/
structure Stored (disk : Disk) : Prop where
  saved : k.Graph disk.state_json.dag
  journal : k.Sound disk.journal

/-- What is written, and what other threads may write. -/
structure Durable (w : World) : Prop extends Stored k w.disk where
  live : k.Graph w.state.dag
  copied : ∀ p, w.publishing = some p → k.Graph p.copied.dag

/-- The graph while the candidate of a node is out. -/
structure Taken (id : String) (dag : Dag) : Prop where
  unique : (dag.nodes.map (·.id)).Nodup
  present : ∀ id candidate, k.saved id = some candidate → id ∈ dag.nodes.map (·.id)
  nodes : ∀ node ∈ dag.nodes, k.Whole node ∨
    node.id = id ∧ node.holes.length = k.holes id ∧ node.status = .candidate ∧ node.candidate = []

end Stock

/-- Some node waits for the verifier without its candidate. -/
def exposed (dag : Dag) : Bool :=
  dag.nodes.any fun node => node.status = .candidate && node.candidate.length ≠ node.holes.length

/-- Workers persist no exposed graph. -/
def Worker.clean (step : Worker) (w : World) : Bool :=
  match step with
  | .publish _ => true
  | .persist _ => !exposed w.dag

/-- What other threads do. -/
def Workers : World → World → Prop :=
  Relation.ReflTransGen fun w w' => ∃ step : Worker, step.clean w = true ∧ step.apply w = some w'

theorem Workers.refl (w : World) : Workers w w := Relation.ReflTransGen.refl

theorem Workers.trans (w w' w'' : World) (h : Workers w w') (h' : Workers w' w'') : Workers w w'' :=
  Relation.ReflTransGen.trans h h'

namespace Stock
variable {k : Stock} {w : World}

/-! ### Graphs -/

theorem Graph.taken {dag : Dag} (h : k.Graph dag) (id : String) : k.Taken id dag :=
  ⟨h.unique, h.present, fun node hnode => Or.inl (h.nodes node hnode)⟩

/-- A candidate that is out of a node without holes is out nowhere. -/
theorem Taken.graph {dag : Dag} {id : String} {candidate : List Text} (h : k.Taken id dag)
    (hfits : k.Fits id candidate) (hexposed : exposed dag = false) : k.Graph dag := by
  refine ⟨h.unique, h.present, fun node hnode => ?_⟩
  rcases h.nodes node hnode with hwhole | ⟨rfl, hholes, hstatus, hempty⟩
  · exact hwhole
  · have hcount : node.candidate.length = node.holes.length := by
      by_contra hne
      refine List.any_eq_false.mp hexposed node hnode ?_
      simp [hstatus, hne]
    have hnil : candidate = [] := by
      rw [← List.length_eq_zero_iff, hfits.count, ← hholes, ← hcount, hempty]
      rfl
    exact ⟨hholes, Or.inl hempty, fun _ => hcount, fun other hother =>
      Or.inr (by rw [hempty, hfits.saved other hother, hnil])⟩

theorem mem_update {dag : Dag} {id : String} {f : Node → Node} {node : Node}
    (h : node ∈ (dag.update id f).nodes) :
    ∃ old ∈ dag.nodes, (old.id = id ∧ node = f old) ∨ (old.id ≠ id ∧ node = old) := by
  obtain ⟨old, hold, rfl⟩ := List.mem_map.mp h
  by_cases hid : old.id = id
  · exact ⟨old, hold, Or.inl ⟨hid, if_pos hid⟩⟩
  · exact ⟨old, hold, Or.inr ⟨hid, if_neg hid⟩⟩

theorem ids_update (dag : Dag) {id : String} {f : Node → Node} (hf : ∀ node, (f node).id = node.id) :
    (dag.update id f).nodes.map (·.id) = dag.nodes.map (·.id) := by
  rw [Dag.update, List.map_map]
  refine List.map_congr_left fun node _ => ?_
  show (if node.id = id then f node else node).id = node.id
  split
  · exact hf node
  · rfl

/-- Assigning fields leaves the ids. -/
theorem Taken.reassign {dag dag' : Dag} {id : String} (h : k.Taken id dag)
    (hids : dag'.nodes.map (·.id) = dag.nodes.map (·.id))
    (hnodes : ∀ node ∈ dag'.nodes, k.Whole node ∨
      node.id = id ∧ node.holes.length = k.holes id ∧ node.status = .candidate ∧ node.candidate = []) :
    k.Taken id dag' :=
  ⟨hids ▸ h.unique, fun other candidate hother => hids ▸ h.present other candidate hother, hnodes⟩

theorem Graph.reassign {dag dag' : Dag} (hunique : (dag.nodes.map (·.id)).Nodup)
    (hpresent : ∀ id candidate, k.saved id = some candidate → id ∈ dag.nodes.map (·.id))
    (hids : dag'.nodes.map (·.id) = dag.nodes.map (·.id)) (hnodes : ∀ node ∈ dag'.nodes, k.Whole node) :
    k.Graph dag' :=
  ⟨hids ▸ hunique, fun other candidate hother => hids ▸ hpresent other candidate hother, hnodes⟩

/-- An assignment that makes the node whole makes the graph whole. -/
theorem Taken.update {dag : Dag} {id : String} {f : Node → Node} (h : k.Taken id dag)
    (hid : ∀ node, (f node).id = node.id) (hf : ∀ node, node.id = id → node.holes.length = k.holes id →
      k.Whole node ∨ (node.status = .candidate ∧ node.candidate = []) → k.Whole (f node)) :
    k.Graph (dag.update id f) := by
  refine Graph.reassign h.unique h.present (ids_update dag hid) fun node hnode => ?_
  obtain ⟨old, hold, ⟨hsame, rfl⟩ | ⟨hother, rfl⟩⟩ := mem_update hnode
  · rcases h.nodes old hold with hwhole | ⟨-, hholes, hstatus, hempty⟩
    · exact hf old hsame (hsame ▸ hwhole.holes) (Or.inl hwhole)
    · exact hf old hsame hholes (Or.inr ⟨hstatus, hempty⟩)
  · rcases h.nodes node hold with hwhole | ⟨hsame, -⟩
    · exact hwhole
    · exact absurd hsame hother

/-- An assignment to whole nodes that leaves them whole. -/
theorem Graph.assign {dag : Dag} {id : String} {f : Node → Node} (h : k.Graph dag)
    (hid : ∀ node, (f node).id = node.id) (hf : ∀ node, k.Whole node → k.Whole (f node)) :
    k.Graph (dag.update id f) := by
  refine Graph.reassign h.unique h.present (ids_update dag hid) fun node hnode => ?_
  obtain ⟨old, hold, ⟨-, rfl⟩ | ⟨-, rfl⟩⟩ := mem_update hnode
  · exact hf old (h.nodes old hold)
  · exact h.nodes node hold

/-- The candidate is put into its node. -/
theorem whole_candidate {node : Node} {id : String} {candidate : List Text} (hfits : k.Fits id candidate)
    (hid : node.id = id) (hholes : node.holes.length = k.holes id) (hcandidate : node.candidate = candidate) :
    k.Whole node where
  holes := hid ▸ hholes
  count := Or.inr (by rw [hcandidate, hfits.count, hholes])
  candidate _ := by rw [hcandidate, hfits.count, hholes]
  kept other hother := Or.inr (by rw [hcandidate, hfits.saved other (hid ▸ hother)])

theorem whole_proved {node : Node} (hholes : node.holes.length = k.holes node.id) (hproved : node.status = .proved)
    (hempty : node.candidate = []) : k.Whole node where
  holes := hholes
  count := Or.inl hempty
  candidate hstatus := by
    rw [hproved] at hstatus
    cases hstatus
  kept _ _ := Or.inl hproved

/-! ### Assertions -/

/-- What is known of the live graph and of the journal; a graph that is not exposed is whole. -/
structure Hold (k : Stock) where
  dag : Dag → Prop
  journal : Option Journal → Prop
  clean : ∀ d, dag d → exposed d = false → k.Graph d

structure Hold.At (g : Hold k) (w : World) : Prop where
  durable : k.Durable w
  dag : g.dag w.dag
  journal : g.journal w.disk.journal

/-- What the assertions read. -/
structure Same (w w' : World) : Prop where
  dag : w'.dag = w.dag
  live : w'.state.dag = w.state.dag
  saved : w'.disk.state_json = w.disk.state_json
  publishing : w'.publishing = w.publishing
  journal : w'.disk.journal = w.disk.journal

variable {g : Hold k} {w' : World}

theorem Hold.At.same (h : g.At w) (hsame : Same w w') : g.At w' where
  durable := {
    saved := hsame.saved ▸ h.durable.saved
    journal := hsame.journal ▸ h.durable.journal
    live := hsame.live ▸ h.durable.live
    copied := hsame.publishing ▸ h.durable.copied }
  dag := hsame.dag ▸ h.dag
  journal := hsame.journal ▸ h.journal

/-- A whole graph is written. -/
theorem Hold.At.save (h : g.At w) {saved : Saved} (hsaved : k.Graph saved.dag) {publishing : Option Publishing}
    (hcopied : ∀ p, publishing = some p → k.Graph p.copied.dag) :
    g.At { w.save saved with publishing := publishing } where
  durable := { saved := hsaved, journal := h.durable.journal, live := h.durable.live, copied := hcopied }
  dag := h.dag
  journal := h.journal

theorem Hold.At.publish (h : g.At w) (step : PublishStep) (hstep : step.apply w = some w') : g.At w' := by
  have hself : k.Graph w.disk.state_json.dag := h.durable.saved
  cases hp : w.publishing with
  | none =>
    cases step with
    | begin shown =>
      simp only [PublishStep.apply, hp] at hstep
      split at hstep
      · cases hstep
      · obtain rfl := Option.some.inj hstep
        exact h.save hself fun p hp => Option.some.inj hp ▸ h.durable.live
    | list | record | write | fail => simp [PublishStep.apply, hp] at hstep
  | some p =>
    have hcopied : k.Graph p.copied.dag := h.durable.copied p hp
    cases step with
    | begin shown => simp [PublishStep.apply, hp] at hstep
    | list =>
      simp only [PublishStep.apply, hp] at hstep
      split at hstep
      · obtain rfl := Option.some.inj hstep
        exact h.save hself fun q hq => Option.some.inj hq ▸ hcopied
      · cases hstep
    | record =>
      simp only [PublishStep.apply, hp] at hstep
      split at hstep
      · obtain ⟨change, -, rfl⟩ := Option.map_eq_some_iff.mp hstep
        exact h.save hself fun q hq => Option.some.inj hq ▸ hcopied
      · cases hstep
    | write =>
      simp only [PublishStep.apply, hp] at hstep
      split at hstep
      · obtain rfl := Option.some.inj hstep
        exact h.save (by rw [dag_publication]; exact hcopied) fun q hq => by cases hq
      · cases hstep
    | fail =>
      simp only [PublishStep.apply, hp] at hstep
      obtain rfl := Option.some.inj hstep
      exact h.save hself fun q hq => by cases hq

/-- The graph in memory becomes the live one and the durable one. -/
theorem Hold.At.committed (h : g.At w) (hgraph : k.Graph w.dag) (hsame : Same w w') (shown : Node → NodeStatus) :
    g.At (w'.commit.publish shown) := by
  have hdag : k.Graph w'.dag := hsame.dag ▸ hgraph
  have hsaved : k.Graph (w'.commit.state.publication shown).dag := by
    rw [dag_publication]
    exact hdag
  exact {
    durable := {
      saved := hsaved
      journal := (h.same hsame).durable.journal
      live := hdag
      copied := (h.same hsame).durable.copied }
    dag := (h.same hsame).dag
    journal := (h.same hsame).journal }

theorem same_checkpoint (w : World) : Same w w.checkpoint := by
  unfold World.checkpoint
  split <;> exact ⟨rfl, rfl, rfl, rfl, rfl⟩

theorem Hold.stable (g : Hold k) : Prog.Stable Workers g.At := by
  intro w w' h hworkers
  induction hworkers with
  | refl => exact h
  | tail _ hstep ih =>
    obtain ⟨step, hclean, hstep⟩ := hstep
    cases step with
    | publish step => exact ih.publish step hstep
    | persist shown =>
      rename_i w₁ _ _
      simp only [Worker.apply] at hstep
      split at hstep
      · cases hstep
      · obtain rfl := Option.some.inj hstep
        have hgraph : k.Graph w₁.dag := g.clean _ ih.dag (by simpa [Worker.clean] using hclean)
        refine ih.committed hgraph ?_ shown
        split
        · exact ⟨rfl, rfl, rfl, rfl, rfl⟩
        · have hcheckpoint := same_checkpoint w₁
          exact ⟨hcheckpoint.dag, hcheckpoint.live, hcheckpoint.saved, hcheckpoint.publishing, hcheckpoint.journal⟩

theorem Hold.kept (g : Hold k) : Prog.Kept Workers (fun w => k.Stored w.disk) g.At :=
  ⟨g.stable, fun _ h => h.durable.toStored⟩

end Stock

end LeanFlow.Transactions
