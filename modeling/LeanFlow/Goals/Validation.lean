import LeanFlow.General.Layers
import LeanFlow.Goals.Planned

/-! What the validation of a graph accepts.

The depth-first search returns the nodes it finished, the last one first: each comes
before what it needs (`visit_layered`), and where nothing needs itself no search fails
(`visit_ok`). With the other checks, `validate_iff`. -/
namespace LeanFlow.Goals
open General Source

/-! ### The search for a cycle -/

section Visit

variable {dependencies : String → List String}

/-- What a search that succeeds leaves. -/
structure Finished (dependencies : String → List String) (visiting before after : List String) : Prop where
  layered : Layered dependencies after
  subset : before ⊆ after
  fresh : ∀ id ∈ after, id ∈ before ∨ id ∉ visiting

theorem Finished.trans {visiting before between after : List String} (h : Finished dependencies visiting before between)
    (h' : Finished dependencies visiting between after) : Finished dependencies visiting before after := by
  refine ⟨h'.layered, fun id hid => h'.subset (h.subset hid), fun id hid => ?_⟩
  rcases h'.fresh id hid with hbetween | hnew
  · exact h.fresh id hbetween
  · exact Or.inr hnew

theorem fold_layered {search : List String → String → Except ValueError (List String)} {visiting : List String}
    (hsearch : ∀ before id after, Layered dependencies before → search before id = .ok after →
      Finished dependencies visiting before after ∧ id ∈ after) {ids before after : List String}
    (hbefore : Layered dependencies before) (h : ids.foldlM search before = .ok after) :
    Finished dependencies visiting before after ∧ ids ⊆ after := by
  induction ids generalizing before with
  | nil =>
    obtain rfl := Except.ok.inj h
    exact ⟨⟨hbefore, fun _ hid => hid, fun _ hid => Or.inl hid⟩, List.nil_subset _⟩
  | cons id ids ih =>
    rw [List.foldlM_cons] at h
    obtain ⟨between, hid, h⟩ := bind_eq_ok.mp h
    obtain ⟨hfinished, hmem⟩ := hsearch before id between hbefore hid
    obtain ⟨hrest, hids⟩ := ih hfinished.layered h
    exact ⟨hfinished.trans hrest, List.cons_subset.mpr ⟨hrest.subset hmem, hids⟩⟩

theorem visit_layered (depth : Nat) (visiting before : List String) (id : String) (after : List String)
    (hbefore : Layered dependencies before) (h : visit dependencies depth visiting before id = .ok after) :
    Finished dependencies visiting before after ∧ id ∈ after := by
  induction depth generalizing visiting before id after with
  | zero =>
    unfold visit at h
    split at h
    · cases h
    · split at h
      · rename_i hvisited
        obtain rfl := Except.ok.inj h
        exact ⟨⟨hbefore, fun _ hid => hid, fun _ hid => Or.inl hid⟩, hvisited⟩
      · cases h
  | succ depth ih =>
    unfold visit at h
    split at h
    · cases h
    · rename_i hvisiting
      split at h
      · rename_i hvisited
        obtain rfl := Except.ok.inj h
        exact ⟨⟨hbefore, fun _ hid => hid, fun _ hid => Or.inl hid⟩, hvisited⟩
      · rename_i hnew
        obtain ⟨below, hbelow, h⟩ := bind_eq_ok.mp h
        obtain rfl := Except.ok.inj h
        have hdone : Finished dependencies (id :: visiting) before below ∧ dependencies id ⊆ below :=
          fold_layered (fun before id after => ih _ before id after) hbefore hbelow
        obtain ⟨hfinished, hdependencies⟩ := hdone
        have hid : id ∉ below := by
          intro hmem
          rcases hfinished.fresh id hmem with hbefore | hfresh
          · exact hnew hbefore
          · exact hfresh (List.mem_cons_self ..)
        refine ⟨⟨⟨hdependencies, hid, hfinished.layered⟩, fun x hx => List.mem_cons_of_mem _ (hfinished.subset hx), fun x hx => ?_⟩,
          List.mem_cons_self ..⟩
        rcases List.mem_cons.mp hx with rfl | hx
        · exact Or.inr hvisiting
        · rcases hfinished.fresh x hx with hbefore | hfresh
          · exact Or.inl hbefore
          · exact Or.inr fun hmem => hfresh (List.mem_cons_of_mem _ hmem)

/-- A search finds no cycle where there is none, and does not run out of depth. -/
theorem visit_ok (hacyclic : Acyclic dependencies) {ids : List String} (hids : ∀ id ∈ ids, dependencies id ⊆ ids)
    (depth : Nat) (visiting before : List String) (id : String) (hid : id ∈ ids) (hvisiting : visiting.Nodup)
    (hsub : visiting ⊆ ids) (hpath : ∀ other ∈ visiting, Needs dependencies other id) (hdepth : ids.length ≤ depth + visiting.length) :
    ∃ after, visit dependencies depth visiting before id = .ok after := by
  induction depth generalizing visiting before id with
  | zero =>
    have hnew : id ∉ visiting := fun hmem => hacyclic id (hpath id hmem)
    have hlength : (id :: visiting).length ≤ ids.length :=
      ((List.nodup_cons.mpr ⟨hnew, hvisiting⟩).subperm (List.cons_subset.mpr ⟨hid, hsub⟩)).length_le
    rw [List.length_cons] at hlength
    omega
  | succ depth ih =>
    have hnew : id ∉ visiting := fun hmem => hacyclic id (hpath id hmem)
    unfold visit
    rw [if_neg hnew]
    by_cases hvisited : id ∈ before
    · exact ⟨before, if_pos hvisited⟩
    · rw [if_neg hvisited]
      dsimp only
      have hbelow (dependency : String) (hdependency : dependency ∈ dependencies id) (before : List String) :
          ∃ after, visit dependencies depth (id :: visiting) before dependency = .ok after := by
        refine ih (id :: visiting) before dependency (hids id hid hdependency) (List.nodup_cons.mpr ⟨hnew, hvisiting⟩)
          (List.cons_subset.mpr ⟨hid, hsub⟩) (fun other hother => ?_) ?_
        · rcases List.mem_cons.mp hother with rfl | hother
          · exact .single hdependency
          · exact (hpath other hother).tail hdependency
        · rw [List.length_cons]
          omega
      obtain ⟨below, hfold⟩ := foldlM_ok hbelow before
      exact ⟨id :: below, by rw [hfold]; rfl⟩

/-- The search from every node succeeds just when no node needs itself. -/
theorem visits_iff {ids : List String} (hids : ∀ id ∈ ids, dependencies id ⊆ ids)
    (houtside : ∀ id, id ∉ ids → dependencies id = []) :
    (∃ after, ids.foldlM (visit dependencies ids.length []) [] = .ok after) ↔ Acyclic dependencies := by
  constructor
  · rintro ⟨after, hafter⟩ id hneeds
    obtain ⟨hfinished, hall⟩ := fold_layered (fun before id after => visit_layered ids.length [] before id after)
      (show Layered dependencies [] from trivial) hafter
    by_cases hid : id ∈ ids
    · exact hfinished.layered.irrefl (hall hid) hneeds
    · obtain ⟨other, hother, -⟩ := Relation.TransGen.head'_iff.mp hneeds
      rw [houtside id hid] at hother
      cases hother
  · intro hacyclic
    exact foldlM_ok (fun id hid before => visit_ok hacyclic hids ids.length [] before id hid List.nodup_nil (List.nil_subset _)
      (fun _ hother => absurd hother List.not_mem_nil) (Nat.le_add_right _ _)) []

end Visit

/-! ### The checks of the nodes -/

/-- A relative path of a Lean file that no tool owns. -/
structure SafeFile (value : String) : Prop where
  relative : value.toList.head? ≠ some '/'
  inside : ['.', '.'] ∉ path_parts value
  plain : '\\' ∉ value.toList
  lean : lean_suffix value = true
  unreserved : ∀ part, (path_parts value).head? = some part → part ∉ [".lake", ".git", ".leanflow"].map String.toList

theorem safe_iff (value : String) : (∃ path, safe_relative_file value = .ok path) ↔ SafeFile value := by
  unfold safe_relative_file
  dsimp only
  constructor
  · rintro ⟨path, h⟩
    split at h
    · cases h
    · rename_i hplace
      split at h
      · cases h
      · rename_i hreserved
        simp only [not_or, not_not] at hplace
        refine ⟨hplace.1, hplace.2.1, hplace.2.2.1, hplace.2.2.2, fun part hpart hmem => hreserved ?_⟩
        rw [hpart]
        exact decide_eq_true hmem
  · intro h
    rw [if_neg (by simp [h.relative, h.inside, h.plain, h.lean]), if_neg ?_]
    · exact ⟨_, rfl⟩
    · cases hpart : (path_parts value).head? with
      | none => simp
      | some part =>
        simp only [Option.any_some, decide_eq_true_eq]
        exact h.unreserved part hpart

/-- What is asked of a node alone. -/
structure NodeValid (ids : List String) (node : Shape) : Prop where
  file : SafeFile node.file
  id : node.id ≠ ""
  name : node.name ≠ ""
  statement : node.statement ≠ ""
  distinct : node.dependencies.Nodup
  present : node.dependencies ⊆ ids

theorem validate_node_iff {ids : List String} {names names' : List (String × String)} {node : Shape} :
    validate_node ids names node = .ok names' ↔
      NodeValid ids node ∧ (node.file, node.name) ∉ names ∧ names' = (node.file, node.name) :: names := by
  unfold validate_node
  rw [bind_eq_ok]
  constructor
  · rintro ⟨path, hpath, h⟩
    split at h
    · cases h
    · rename_i hfields
      split at h
      · cases h
      · rename_i hnew
        split at h
        · cases h
        · rename_i hdistinct
          split at h
          · cases h
          · rename_i hpresent
            simp only [not_or] at hfields
            refine ⟨⟨(safe_iff _).mp ⟨path, hpath⟩, hfields.1, hfields.2.1, hfields.2.2, not_not.mp hdistinct, fun dep hdep => ?_⟩,
              hnew, (Except.ok.inj h).symm⟩
            by_contra hmissing
            exact hpresent (List.any_eq_true.mpr ⟨dep, hdep, decide_eq_true hmissing⟩)
  · rintro ⟨hvalid, hnew, rfl⟩
    obtain ⟨path, hpath⟩ := (safe_iff _).mpr hvalid.file
    refine ⟨path, hpath, ?_⟩
    rw [if_neg (by simp [hvalid.id, hvalid.name, hvalid.statement]), if_neg hnew, if_neg (not_not.mpr hvalid.distinct), if_neg ?_]
    intro hany
    obtain ⟨dep, hdep, hmissing⟩ := List.any_eq_true.mp hany
    exact of_decide_eq_true hmissing (hvalid.present hdep)

theorem validate_nodes_iff {ids : List String} {nodes : List Shape} {names : List (String × String)} :
    (∃ names', nodes.foldlM (validate_node ids) names = .ok names') ↔
      (∀ node ∈ nodes, NodeValid ids node) ∧ (nodes.map fun node => (node.file, node.name)).Nodup ∧
        ∀ node ∈ nodes, (node.file, node.name) ∉ names := by
  induction nodes generalizing names with
  | nil => exact ⟨fun _ => ⟨fun _ h => absurd h List.not_mem_nil, List.nodup_nil, fun _ h => absurd h List.not_mem_nil⟩,
      fun _ => ⟨names, rfl⟩⟩
  | cons node nodes ih =>
    rw [List.foldlM_cons, List.map_cons, List.nodup_cons, List.forall_mem_cons, List.forall_mem_cons]
    constructor
    · rintro ⟨names', h⟩
      obtain ⟨between, hnode, h⟩ := bind_eq_ok.mp h
      obtain ⟨hvalid, hnew, rfl⟩ := validate_node_iff.mp hnode
      obtain ⟨hvalids, hdistinct, hnews⟩ := ih.mp ⟨names', h⟩
      refine ⟨⟨hvalid, hvalids⟩, ⟨fun hmem => ?_, hdistinct⟩, hnew, fun other hother hmem => hnews other hother (List.mem_cons_of_mem _ hmem)⟩
      obtain ⟨other, hother, heq⟩ := List.mem_map.mp hmem
      exact hnews other hother (heq ▸ List.mem_cons_self ..)
    · rintro ⟨⟨hvalid, hvalids⟩, ⟨hfirst, hdistinct⟩, hnew, hnews⟩
      have hrest : ∀ other ∈ nodes, (other.file, other.name) ∉ (node.file, node.name) :: names := by
        intro other hother hmem
        rcases List.mem_cons.mp hmem with heq | hmem
        · exact hfirst (List.mem_map.mpr ⟨other, hother, heq⟩)
        · exact hnews other hother hmem
      obtain ⟨names', h⟩ := ih.mpr ⟨hvalids, hdistinct, hrest⟩
      exact ⟨names', bind_eq_ok.mpr ⟨_, validate_node_iff.mpr ⟨hvalid, hnew, rfl⟩, h⟩⟩

namespace Dag

/-- A graph as the controller accepts it. -/
structure Wellformed (dag : Dag) (max_nodes : Nat) : Prop where
  distinct : dag.ids.Nodup
  within : dag.nodes.length ≤ max_nodes
  roots : dag.roots ⊆ dag.ids
  nodes : ∀ node ∈ dag.nodes, SafeFile node.file ∧ node.id ≠ "" ∧ node.name ≠ "" ∧ node.statement ≠ "" ∧
    node.dependencies.Nodup ∧ node.dependencies ⊆ dag.ids
  declarations : (dag.nodes.map fun node => (node.file, node.name)).Nodup
  acyclic : ∀ id, ¬Relation.TransGen (fun a b => dag.depends a b = true) id id

theorem depends_iff {dag : Dag} (h : dag.ids.Nodup) (id dep : String) : dag.depends id dep = true ↔ dep ∈ dag.dependencies id := by
  refine ⟨fun hdepends => ?_, depends_of_dependencies⟩
  obtain ⟨node, hnode, hdepends⟩ := List.any_eq_true.mp hdepends
  simp only [Bool.and_eq_true, beq_iff_eq, decide_eq_true_eq] at hdepends
  rw [← hdepends.1, dependencies_of_mem h hnode]
  exact hdepends.2

/-- What the search reads of a node is what the node has. -/
theorem shape_dependencies (dag : Dag) (id : String) :
    ((dag.shapes.find? (·.id == id)).map (·.dependencies)).getD [] = dag.dependencies id := by
  unfold dependencies by_id shapes
  rw [List.find?_map, Option.map_map]
  rfl

theorem dependencies_outside (dag : Dag) (id : String) (h : id ∉ dag.ids) : dag.dependencies id = [] := by
  unfold dependencies
  cases hnode : dag.by_id id with
  | none => rfl
  | some node => exact absurd (List.mem_map.mpr ⟨node, mem_of_by_id hnode, id_of_by_id hnode⟩) h

/-- The validation, in the terms of the graph. -/
theorem validate_eq (dag : Dag) (max_nodes : Nat) : dag.validate max_nodes =
    if ¬dag.ids.Nodup ∨ max_nodes < dag.nodes.length then .error ⟨"DAG contains duplicate IDs or exceeds its node limit"⟩
    else if dag.roots.any (· ∉ dag.ids) then .error ⟨"DAG root does not exist"⟩
    else dag.shapes.foldlM (validate_node dag.ids) [] >>= fun _ =>
      dag.ids.foldlM (visit dag.dependencies dag.ids.length []) [] >>= fun _ => pure () := by
  have hlength : dag.shapes.length = dag.nodes.length := List.length_map ..
  have hids : dag.ids.length = dag.nodes.length := List.length_map ..
  unfold validate validate_shapes
  dsimp only
  rw [ids_shapes, hlength, hids, funext dag.shape_dependencies]

theorem nodes_iff (dag : Dag) : (∀ node ∈ dag.shapes, NodeValid dag.ids node) ↔
    ∀ node ∈ dag.nodes, SafeFile node.file ∧ node.id ≠ "" ∧ node.name ≠ "" ∧ node.statement ≠ "" ∧
      node.dependencies.Nodup ∧ node.dependencies ⊆ dag.ids := by
  unfold shapes
  rw [List.forall_mem_map]
  exact forall₂_congr fun node _ => ⟨fun h => ⟨h.file, h.id, h.name, h.statement, h.distinct, h.present⟩,
    fun ⟨hfile, hid, hname, hstatement, hdistinct, hpresent⟩ => ⟨hfile, hid, hname, hstatement, hdistinct, hpresent⟩⟩

theorem dependencies_present {dag : Dag} (h : ∀ node ∈ dag.nodes, node.dependencies ⊆ dag.ids) (id : String) :
    dag.dependencies id ⊆ dag.ids := by
  unfold dependencies
  cases hnode : dag.by_id id with
  | none => exact List.nil_subset _
  | some node => exact h node (mem_of_by_id hnode)

theorem acyclic_iff {dag : Dag} (h : dag.ids.Nodup) :
    Acyclic dag.dependencies ↔ ∀ id, ¬Relation.TransGen (fun a b => dag.depends a b = true) id id := by
  simp only [depends_iff h]
  rfl

theorem validate_iff (dag : Dag) (max_nodes : Nat) : dag.validate max_nodes = .ok () ↔ dag.Wellformed max_nodes := by
  have hnames : (dag.shapes.map fun node => (node.file, node.name)) = dag.nodes.map fun node => (node.file, node.name) := by
    rw [shapes, List.map_map]
    rfl
  rw [validate_eq]
  constructor
  · intro h
    split at h
    · cases h
    · rename_i hids
      obtain ⟨hdistinct, hwithin⟩ := not_or.mp hids
      have hdistinct := not_not.mp hdistinct
      split at h
      · cases h
      · rename_i hroots
        obtain ⟨names, hchecked, h⟩ := bind_eq_ok.mp h
        obtain ⟨hvalid, hdeclarations, -⟩ := validate_nodes_iff.mp ⟨names, hchecked⟩
        have hnodes := dag.nodes_iff.mp hvalid
        obtain ⟨visited, hvisited, -⟩ := bind_eq_ok.mp h
        refine ⟨hdistinct, not_lt.mp hwithin, fun root hroot => ?_, hnodes, hnames ▸ hdeclarations, ?_⟩
        · by_contra hmissing
          exact hroots (List.any_eq_true.mpr ⟨root, hroot, decide_eq_true hmissing⟩)
        · refine (acyclic_iff hdistinct).mp ((visits_iff (fun id _ => ?_) dag.dependencies_outside).mp ⟨visited, hvisited⟩)
          exact dependencies_present (fun node hnode => (hnodes node hnode).2.2.2.2.2) id
  · intro h
    rw [if_neg (by simp [h.distinct, h.within]), if_neg ?_]
    · obtain ⟨names, hchecked⟩ := validate_nodes_iff.mpr ⟨dag.nodes_iff.mpr h.nodes, hnames.symm ▸ h.declarations,
        fun _ _ hmem => absurd hmem (List.not_mem_nil (a := _))⟩
      obtain ⟨visited, hvisited⟩ := (visits_iff (fun id _ =>
        dependencies_present (fun node hnode => (h.nodes node hnode).2.2.2.2.2) id) dag.dependencies_outside).mpr
          ((acyclic_iff h.distinct).mpr h.acyclic)
      exact bind_eq_ok.mpr ⟨names, hchecked, bind_eq_ok.mpr ⟨visited, hvisited, rfl⟩⟩
    · intro hany
      obtain ⟨root, hroot, hmissing⟩ := List.any_eq_true.mp hany
      exact of_decide_eq_true hmissing (h.roots hroot)

/-- The affected nodes are just those that there is a path from. -/
theorem mem_affected_iff (dag : Dag) (changed id : String) :
    id ∈ dag.affected changed ↔ Relation.ReflTransGen (fun a b => dag.depends a b = true) id changed := by
  have hfuel : dag.ids.length < dag.nodes.length + 1 := by
    rw [ids, List.length_map]
    exact Nat.lt_succ_self _
  refine (mem_saturate_iff mem_ids_of_depends hfuel changed id).trans ?_
  rw [← Relation.reflTransGen_swap]

end Dag

/-- The validation accepts just the wellformed graphs, and the affected nodes are just those that there is a path from. -/
theorem validate_exact (dag : Dag) (max_nodes : Nat) :
    (dag.validate max_nodes = .ok () ↔ dag.Wellformed max_nodes) ∧
      ∀ changed id, id ∈ dag.affected changed ↔ Relation.ReflTransGen (fun a b => dag.depends a b = true) id changed :=
  ⟨dag.validate_iff max_nodes, dag.mem_affected_iff⟩

end LeanFlow.Goals
