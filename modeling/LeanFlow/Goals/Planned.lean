import LeanFlow.Goals.Proposal

/-! What a proposal leaves as it was.

`Updated` says what one node keeps, `Grown` what the graph keeps while the planned nodes
are taken in, and `Preserved` what holds of the graph that is returned (`preserved_of_grown`). -/
namespace LeanFlow.Goals
open General Source

/-! ### Validated graphs -/

namespace Dag

/-- What a validated graph is known for. -/
structure Valid (dag : Dag) : Prop where
  distinct : dag.ids.Nodup
  roots : dag.roots ⊆ dag.ids
  dependencies : ∀ node ∈ dag.nodes, node.dependencies ⊆ dag.ids

theorem ids_shapes (dag : Dag) : dag.shapes.map (·.id) = dag.ids := by
  rw [shapes, List.map_map]
  rfl

theorem valid_of_validate {dag : Dag} {max_nodes : Nat} (h : dag.validate max_nodes = .ok ()) : dag.Valid := by
  unfold validate validate_shapes at h
  dsimp only at h
  rw [ids_shapes] at h
  split at h
  · cases h
  · rename_i hids
    split at h
    · cases h
    · rename_i hroots
      obtain ⟨names, hnames, -⟩ := bind_eq_ok.mp h
      refine ⟨not_not.mp (not_or.mp hids).1, fun root hroot => ?_, fun node hnode dep hdep => ?_⟩
      · by_contra hmissing
        exact hroots (List.any_eq_true.mpr ⟨root, hroot, decide_eq_true hmissing⟩)
      · by_contra hmissing
        obtain ⟨taken, taken', hturn⟩ := foldlM_eq_ok hnames (List.mem_map.mpr ⟨node, hnode, rfl⟩)
        have hany : node.dependencies.any (· ∉ dag.ids) = true :=
          List.any_eq_true.mpr ⟨dep, hdep, decide_eq_true hmissing⟩
        obtain ⟨_, -, hturn⟩ := bind_eq_ok.mp hturn
        rw [Node.shape] at hturn
        simp only [hany] at hturn
        split_ifs at hturn

theorem by_id_of_mem {dag : Dag} (h : dag.ids.Nodup) {node : Node} (hnode : node ∈ dag.nodes) :
    dag.by_id node.id = some node := by
  obtain ⟨nodes, roots, revision⟩ := dag
  unfold by_id
  unfold ids at h
  dsimp only at h hnode ⊢
  induction nodes with
  | nil => cases hnode
  | cons first nodes ih =>
    obtain ⟨hfirst, hrest⟩ := List.nodup_cons.mp h
    rcases List.mem_cons.mp hnode with rfl | hnode
    · exact List.find?_cons_of_pos (beq_self_eq_true node.id)
    · have hne : ¬(first.id == node.id) = true := by
        intro heq
        refine hfirst (List.mem_map.mpr ⟨node, hnode, ?_⟩)
        exact (beq_iff_eq.mp heq).symm
      exact (List.find?_cons_of_neg (p := fun x : Node => x.id == node.id) hne).trans (ih hrest hnode)

theorem mem_of_by_id {dag : Dag} {id : String} {node : Node} (h : dag.by_id id = some node) : node ∈ dag.nodes :=
  List.mem_of_find?_eq_some h

theorem eq_of_id {dag : Dag} (h : dag.ids.Nodup) {node node' : Node} (hnode : node ∈ dag.nodes) (hnode' : node' ∈ dag.nodes)
    (hid : node.id = node'.id) : node = node' := by
  have hfind := by_id_of_mem h hnode
  rw [hid, by_id_of_mem h hnode'] at hfind
  exact (Option.some.inj hfind).symm

theorem dependencies_of_mem {dag : Dag} (h : dag.ids.Nodup) {node : Node} (hnode : node ∈ dag.nodes) :
    dag.dependencies node.id = node.dependencies := by
  rw [dependencies, by_id_of_mem h hnode]
  rfl

theorem Valid.dependencies_subset {dag : Dag} (h : dag.Valid) (id : String) : dag.dependencies id ⊆ dag.ids := by
  unfold Dag.dependencies
  cases hnode : dag.by_id id with
  | none => exact List.nil_subset _
  | some node => exact h.dependencies node (mem_of_by_id hnode)

/-- There is a path from a root. -/
def Reaches (dag : Dag) (id : String) : Prop :=
  ∃ root ∈ dag.roots, Relation.ReflTransGen (fun a b => b ∈ dag.dependencies a) root id

/-- There is a path to the node from another that needs it. -/
def Ancestor (dag : Dag) (ancestor id : String) : Prop :=
  Relation.ReflTransGen (fun a b => a ∈ dag.dependencies b) id ancestor

theorem mem_reachable_iff {dag : Dag} (h : dag.Valid) (id : String) : id ∈ dag.reachable ↔ dag.Reaches id :=
  mem_explore_iff h.distinct (fun key _ => h.dependencies_subset key) h.roots (Nat.le_refl _) id

/-- The node of an id depends on what it lists. -/
theorem depends_of_dependencies {dag : Dag} {id dep : String} (h : dep ∈ dag.dependencies id) : dag.depends id dep = true := by
  unfold dependencies at h
  cases hnode : dag.by_id id with
  | none =>
    rw [hnode] at h
    cases h
  | some node =>
    rw [hnode] at h
    exact List.any_eq_true.mpr ⟨node, mem_of_by_id hnode, by simp [id_of_by_id hnode, show dep ∈ node.dependencies from h]⟩

theorem mem_ids_of_depends {dag : Dag} {id dep : String} (h : dag.depends id dep = true) : id ∈ dag.ids := by
  obtain ⟨node, hnode, hdepends⟩ := List.any_eq_true.mp h
  exact List.mem_map.mpr ⟨node, hnode, by simpa using (Bool.and_eq_true_iff.mp hdepends).1⟩

theorem mem_affected {dag : Dag} {ancestor id : String} (h : dag.Ancestor ancestor id) : ancestor ∈ dag.affected id := by
  have hfuel : dag.ids.length < dag.nodes.length + 1 := by
    rw [ids, List.length_map]
    exact Nat.lt_succ_self _
  exact mem_saturate mem_ids_of_depends hfuel (List.mem_singleton_self id)
    (Relation.ReflTransGen.mono (fun _ _ hab => depends_of_dependencies hab) _ _ h)

end Dag

/-! ### One node -/

/-- What a planned update leaves of a node. -/
structure Updated (affected : Option (List String)) (old new : Node) : Prop where
  id : new.id = old.id
  name : new.name = old.name
  statement : new.statement = old.statement
  file : new.file = old.file
  holes : new.holes = old.holes
  original : new.original = old.original
  /-- Either nothing changed that is scheduled, or it is pending again. -/
  progress : (new.dependencies = old.dependencies ∧ new.status = old.status ∧ new.revision = old.revision) ∨
    (old.status ≠ .proved ∧ new.status = .pending ∧ old.revision < new.revision)
  outside : affected.any (old.id ∉ ·) = true → new = old

theorem Updated.refl (affected : Option (List String)) (node : Node) : Updated affected node node :=
  ⟨rfl, rfl, rfl, rfl, rfl, rfl, Or.inl ⟨rfl, rfl, rfl⟩, fun _ => rfl⟩

/-- An update of an affected node that is not proved, or keeps its dependencies. -/
theorem Updated.depend {affected : Option (List String)} {old new : Node} (h : Updated affected old new)
    (haffected : affected.any (new.id ∉ ·) = false) {dependencies : List String}
    (hopen : ¬(new.dependencies ≠ dependencies ∧ new.status = .proved)) (informal_justification : String) :
    Updated affected old { new.depend dependencies with informal_justification } := by
  have hsame : (new.depend dependencies).id = new.id ∧ (new.depend dependencies).name = new.name ∧
      (new.depend dependencies).statement = new.statement ∧ (new.depend dependencies).file = new.file ∧
      (new.depend dependencies).holes = new.holes ∧ (new.depend dependencies).original = new.original := by
    unfold Node.depend
    split
    · exact ⟨rfl, rfl, rfl, rfl, rfl, rfl⟩
    · exact ⟨rfl, rfl, rfl, rfl, rfl, rfl⟩
  obtain ⟨hid, hname, hstatement, hfile, hholes, horiginal⟩ := hsame
  refine ⟨hid.trans h.id, hname.trans h.name, hstatement.trans h.statement, hfile.trans h.file, hholes.trans h.holes,
    horiginal.trans h.original, ?_, fun hout => ?_⟩
  · show ((new.depend dependencies).dependencies = old.dependencies ∧ (new.depend dependencies).status = old.status ∧
        (new.depend dependencies).revision = old.revision) ∨
      (old.status ≠ .proved ∧ (new.depend dependencies).status = .pending ∧ old.revision < (new.depend dependencies).revision)
    unfold Node.depend
    split
    · rename_i hchange
      have hstatus : new.status ≠ .proved := fun hproved => hopen ⟨hchange, hproved⟩
      rcases h.progress with ⟨-, hstatus', hrevision⟩ | ⟨hold, -, hrevision⟩
      · refine Or.inr ⟨fun hproved => hstatus (hstatus'.trans hproved), rfl, ?_⟩
        show old.revision < new.revision + 1
        rw [hrevision]
        exact Nat.lt_succ_self _
      · exact Or.inr ⟨hold, rfl, Nat.lt_succ_of_lt hrevision⟩
    · exact h.progress
  · rw [h.id, hout] at haffected
    cases haffected

/-! ### The planned nodes, one after the other -/

/-- What holds of the draft while the planned nodes are taken in. -/
structure Grown (dag : Dag) (affected : Option (List String)) (draft : Draft) : Prop where
  ids : draft.updated.ids = dag.ids ++ draft.skeletons.keys
  distinct : draft.updated.ids.Nodup
  roots : draft.updated.roots = dag.roots
  old : ∀ old ∈ dag.nodes, ∃ new ∈ draft.updated.nodes, Updated affected old new
  helpers : ∀ helper ∈ draft.updated.nodes, helper.id ∈ draft.skeletons.keys →
    "LeanFlowProofs/".toList <+: helper.file.toList ∧
      ∀ other ∈ draft.updated.nodes, other.id ≠ helper.id → other.name ≠ helper.name ∧ other.file ≠ helper.file

theorem grown_start {dag : Dag} (h : dag.Valid) (affected : Option (List String)) : Grown dag affected { updated := dag } where
  ids := (List.append_nil _).symm
  distinct := h.distinct
  roots := rfl
  old node hnode := ⟨node, hnode, .refl affected node⟩
  helpers _ _ hhelper := (List.not_mem_nil hhelper).elim

section Steps

variable {C : CharClass} {repr dumps : Json → String}

theorem ids_update {dag : Dag} {id : String} {f : Node → Node} (hf : ∀ node, (f node).id = node.id) :
    (dag.update id f).ids = dag.ids := by
  rw [Dag.ids, Dag.ids, Dag.update, List.map_map]
  refine List.map_congr_left fun node _ => ?_
  show (if node.id = id then f node else node).id = node.id
  split
  · exact hf node
  · rfl

theorem depend_same (dependencies : List String) (node : Node) : (node.depend dependencies).id = node.id ∧
    (node.depend dependencies).name = node.name ∧ (node.depend dependencies).file = node.file := by
  unfold Node.depend
  split
  · exact ⟨rfl, rfl, rfl⟩
  · exact ⟨rfl, rfl, rfl⟩

/-- An update keeps the draft as it should be. -/
theorem grown_update {dag updated : Dag} {affected : Option (List String)} {draft : Draft} (h : Grown dag affected draft)
    {existing : Node} (hexisting : existing ∈ draft.updated.nodes)
    (haffected : affected.any (existing.id ∉ ·) = false) {raw : Fields}
    (hupdate : update_node repr dumps draft.updated existing raw = .ok updated) :
    Grown dag affected { draft with updated } := by
  unfold update_node at hupdate
  dsimp only at hupdate
  split at hupdate
  · cases hupdate
  · split at hupdate
    · cases hupdate
    · rename_i dependencies _
      split at hupdate
      · cases hupdate
      · rename_i hopen
        obtain rfl := Except.ok.inj hupdate
        have hids (node : Node) : ({ node.depend dependencies with
            informal_justification := str_field repr raw "informal_justification" existing.informal_justification } : Node).id =
              node.id := (depend_same dependencies node).1
        refine ⟨(ids_update hids).trans h.ids, (ids_update hids).symm ▸ h.distinct, h.roots, fun old hold => ?_, ?_⟩
        · obtain ⟨new, hnew, hupdated⟩ := h.old old hold
          refine ⟨_, List.mem_map.mpr ⟨new, hnew, rfl⟩, ?_⟩
          split
          · rename_i hid
            obtain rfl := Dag.eq_of_id h.distinct hnew hexisting hid
            exact hupdated.depend haffected hopen _
          · exact hupdated
        · have hsame (node : Node) : ∀ node' : Node, node' = (if node.id = existing.id then { node.depend dependencies with
              informal_justification := str_field repr raw "informal_justification" existing.informal_justification } else node) →
                node'.id = node.id ∧ node'.name = node.name ∧ node'.file = node.file := by
            rintro node' rfl
            split
            · exact depend_same dependencies node
            · exact ⟨rfl, rfl, rfl⟩
          intro helper hhelper hmem
          obtain ⟨helper₀, hhelper₀, hupdated⟩ := List.mem_map.mp hhelper
          obtain ⟨hid, hname, hfile⟩ := hsame helper₀ helper hupdated.symm
          rw [hid] at hmem
          obtain ⟨hplace, hothers⟩ := h.helpers helper₀ hhelper₀ hmem
          rw [hfile]
          refine ⟨hplace, fun other hother hne => ?_⟩
          obtain ⟨other₀, hother₀, hupdated'⟩ := List.mem_map.mp hother
          obtain ⟨hid', hname', hfile'⟩ := hsame other₀ other hupdated'.symm
          rw [hid, hid'] at hne
          rw [hname, hname', hfile']
          exact hothers other₀ hother₀ hne

theorem new_node_spec {updated : Dag} {node_id : String} {raw : Fields} {node : Node} {skeleton : Text}
    (h : new_node C repr updated node_id raw = .ok (node, skeleton)) : node.id = node_id ∧
      "LeanFlowProofs/".toList <+: node.file.toList ∧
      ∀ other ∈ updated.nodes, other.name ≠ node.name ∧ other.file ≠ node.file := by
  obtain ⟨entry, -, h⟩ := bind_eq_ok.mp h
  obtain ⟨mask, -, h⟩ := bind_eq_ok.mp h
  dsimp only at h
  split at h
  · cases h
  · split at h
    · cases h
    · rename_i hshadow
      split at h
      · cases h
      · obtain ⟨relative, -, h⟩ := bind_eq_ok.mp h
        split at h
        · cases h
        · rename_i hplace
          split at h
          · cases h
          · rename_i hown
            split at h
            · cases h
            · obtain ⟨rfl, -⟩ := Prod.mk.inj (Except.ok.inj h)
              refine ⟨rfl, List.isPrefixOf_iff_prefix.mp (not_not.mp hplace), fun other hother => ⟨fun hname => ?_, fun hfile => ?_⟩⟩
              · exact hshadow (List.any_eq_true.mpr ⟨other, hother, decide_eq_true hname⟩)
              · exact hown (List.any_eq_true.mpr ⟨other, hother, decide_eq_true hfile⟩)

theorem keys_set_new {α : Type} {d : Dict String α} {k : String} (h : k ∉ d.keys) (v : α) : (d.set k v).keys = d.keys ++ [k] := by
  obtain ⟨items, hitems⟩ := d
  unfold Dict.keys Dict.set at *
  dsimp only at *
  clear hitems
  induction items with
  | nil => rfl
  | cons p items ih =>
    obtain ⟨hne, hrest⟩ := not_or.mp (List.mem_cons.not.mp h)
    rw [Dict.assign, if_neg (Ne.symm hne), List.map_cons, ih hrest]
    rfl

/-- A helper keeps the draft as it should be. -/
theorem grown_new {dag : Dag} {affected : Option (List String)} {draft : Draft} (h : Grown dag affected draft)
    {node_id : String} (hnew : draft.updated.by_id node_id = none) {raw : Fields} {node : Node} {skeleton : Text}
    (hnode : new_node C repr draft.updated node_id raw = .ok (node, skeleton)) :
    Grown dag affected ⟨{ draft.updated with nodes := draft.updated.nodes ++ [node] }, draft.skeletons.set node_id skeleton⟩ := by
  obtain ⟨rfl, hplace, hothers⟩ := new_node_spec hnode
  have hfresh : node.id ∉ draft.updated.ids := by
    intro hmem
    obtain ⟨other, hother, hid⟩ := List.mem_map.mp hmem
    have hfound := Dag.by_id_of_mem h.distinct hother
    rw [hid, hnew] at hfound
    cases hfound
  have hkey : node.id ∉ draft.skeletons.keys := by
    intro hmem
    rw [h.ids] at hfresh
    exact hfresh (List.mem_append_right _ hmem)
  have hids : ({ draft.updated with nodes := draft.updated.nodes ++ [node] } : Dag).ids = draft.updated.ids ++ [node.id] :=
    List.map_append
  have hkeys := keys_set_new hkey skeleton
  refine ⟨?_, ?_, h.roots, fun old hold => ?_, fun helper hhelper hmem => ?_⟩
  · rw [hids, hkeys, h.ids, List.append_assoc]
  · rw [hids]
    refine List.nodup_append.mpr ⟨h.distinct, List.nodup_singleton _, fun a ha b hb hab => ?_⟩
    obtain rfl := List.mem_singleton.mp hb
    exact hfresh (hab ▸ ha)
  · obtain ⟨new, hnew, hupdated⟩ := h.old old hold
    exact ⟨new, List.mem_append_left _ hnew, hupdated⟩
  · rcases List.mem_append.mp hhelper with hold | hlast
    · have hne : helper.id ≠ node.id := fun hid => hfresh (hid ▸ List.mem_map.mpr ⟨helper, hold, rfl⟩)
      rw [hkeys] at hmem
      have hmem := (List.mem_append.mp hmem).resolve_right fun hlast => hne (List.mem_singleton.mp hlast)
      obtain ⟨hplace', hothers'⟩ := h.helpers helper hold hmem
      refine ⟨hplace', fun other hother hid => ?_⟩
      rcases List.mem_append.mp hother with hother | hother
      · exact hothers' other hother hid
      · obtain rfl := List.mem_singleton.mp hother
        obtain ⟨hname, hfile⟩ := hothers helper hold
        exact ⟨Ne.symm hname, Ne.symm hfile⟩
    · obtain rfl := List.mem_singleton.mp hlast
      refine ⟨hplace, fun other hother hid => ?_⟩
      rcases List.mem_append.mp hother with hother | hother
      · exact hothers other hother
      · exact absurd (congrArg Node.id (List.mem_singleton.mp hother)) hid

theorem grown_apply {dag : Dag} {affected : Option (List String)} {draft draft' : Draft} (h : Grown dag affected draft)
    {raw : Json} (happly : apply_node C repr dumps affected draft raw = .ok draft') : Grown dag affected draft' := by
  unfold apply_node at happly
  split at happly
  · rename_i raw
    dsimp only at happly
    split at happly
    · rename_i existing hexisting
      split at happly
      · obtain rfl := Except.ok.inj happly
        exact h
      · rename_i haffected
        obtain ⟨updated, hupdate, happly⟩ := bind_eq_ok.mp happly
        obtain rfl := Except.ok.inj happly
        rw [← Dag.id_of_by_id hexisting] at haffected
        exact grown_update h (Dag.mem_of_by_id hexisting) (Bool.eq_false_iff.mpr haffected) hupdate
    · rename_i hnew
      obtain ⟨⟨node, skeleton⟩, hnode, happly⟩ := bind_eq_ok.mp happly
      obtain rfl := Except.ok.inj happly
      exact grown_new h hnew hnode
  · cases happly

end Steps

/-! ### The returned graph -/

/-- What a proposal that is applied preserves; `differ` says of two nodes that they do not claim the same. -/
structure Preserved (differ : Node → Node → Prop) (dag updated : Dag) (skeletons : Dict String Text) (max_nodes : Nat)
    (affected : Option (List String)) : Prop where
  valid : updated.validate max_nodes = .ok ()
  roots : updated.roots = dag.roots
  kept : ∀ node ∈ dag.nodes, node.original = true ∨ node.status = .proved → node.id ∈ updated.ids
  same : ∀ node ∈ dag.nodes, ∀ node' ∈ updated.nodes, node'.id = node.id → node'.name = node.name ∧
    node'.statement = node.statement ∧ node'.file = node.file ∧ node'.holes = node.holes ∧ node'.original = node.original ∧
    (node.status = .proved → node'.status = .proved ∧ node'.revision = node.revision ∧ node'.dependencies = node.dependencies)
  unaffected : affected.elim True fun ids => ∀ node ∈ dag.nodes, node.id ∉ ids → ∀ node' ∈ updated.nodes,
    node'.id = node.id → node' = node
  changed : ∀ node ∈ dag.nodes, ∀ node' ∈ updated.nodes, node'.id = node.id → node'.dependencies ≠ node.dependencies →
    node.status ≠ .proved ∧ node'.status = .pending ∧ node.revision < node'.revision
  added : ∀ id ∈ updated.ids, id ∈ dag.ids ∨ id ∈ skeletons.keys
  helpers : ∀ id ∈ skeletons.keys, id ∉ dag.ids ∧ ∃ helper ∈ updated.nodes, helper.id = id ∧
    "LeanFlowProofs/".toList <+: helper.file.toList ∧
    (∀ other ∈ updated.nodes, other.id ≠ id → other.name ≠ helper.name ∧ other.file ≠ helper.file) ∧
    updated.Reaches id ∧
    ∀ ancestor ∈ updated.nodes, ancestor.id ≠ id → updated.Ancestor ancestor.id id → differ ancestor helper
  dropped : ∀ node ∈ dag.nodes, node.id ∉ updated.ids →
    node.status ≠ .proved ∧ node.original = false ∧ ¬updated.Reaches node.id

/-- The graph without the nodes that are dropped. -/
structure Pruned (whole kept : Dag) : Prop where
  roots : kept.roots = whole.roots
  nodes : ∀ node, node ∈ kept.nodes ↔ node ∈ whole.nodes ∧
    (node.original = true ∨ node.status = .proved ∨ whole.Reaches node.id)

theorem Pruned.edge {whole kept : Dag} (h : Pruned whole kept) (hdistinct : whole.ids.Nodup) {a b : String}
    (hedge : b ∈ kept.dependencies a) : b ∈ whole.dependencies a := by
  unfold Dag.dependencies at hedge
  cases hnode : kept.by_id a with
  | none =>
    rw [hnode] at hedge
    cases hedge
  | some node =>
    rw [hnode] at hedge
    have hmem := ((h.nodes node).mp (Dag.mem_of_by_id hnode)).1
    rw [← Dag.id_of_by_id hnode, Dag.dependencies_of_mem hdistinct hmem]
    exact hedge

theorem Pruned.reaches {whole kept : Dag} (h : Pruned whole kept) (hwhole : whole.Valid) (hkept : kept.ids.Nodup)
    (id : String) : kept.Reaches id ↔ whole.Reaches id := by
  constructor
  · rintro ⟨root, hroot, hpath⟩
    exact ⟨root, h.roots ▸ hroot, Relation.ReflTransGen.mono (fun _ _ hedge => h.edge hwhole.distinct hedge) _ _ hpath⟩
  · rintro ⟨root, hroot, hpath⟩
    refine ⟨root, h.roots.symm ▸ hroot, ?_⟩
    induction hpath with
    | refl => exact .refl
    | @tail a b hpath hedge ih =>
      refine ih.tail ?_
      unfold Dag.dependencies at hedge
      cases hnode : whole.by_id a with
      | none =>
        rw [hnode] at hedge
        cases hedge
      | some node =>
        rw [hnode] at hedge
        have hid := Dag.id_of_by_id hnode
        have hmem : node ∈ kept.nodes :=
          (h.nodes node).mpr ⟨Dag.mem_of_by_id hnode, Or.inr (Or.inr ⟨root, hroot, hid.symm ▸ hpath⟩)⟩
        rw [← hid, Dag.dependencies_of_mem hkept hmem]
        exact hedge

section Proposal

variable {C : CharClass} {repr dumps : Json → String}

theorem Updated.status_proved {affected : Option (List String)} {old new : Node} (h : Updated affected old new)
    (hproved : old.status = .proved) :
    new.status = .proved ∧ new.revision = old.revision ∧ new.dependencies = old.dependencies := by
  rcases h.progress with ⟨hdependencies, hstatus, hrevision⟩ | ⟨hopen, -⟩
  · exact ⟨hstatus.trans hproved, hrevision, hdependencies⟩
  · exact absurd hproved hopen

theorem claim_ne_of_check {updated : Dag} (hdistinct : updated.ids.Nodup) {helper ancestor : Node}
    (hhelper : helper ∈ updated.nodes) (hancestor : ancestor ∈ updated.nodes) (hne : ancestor.id ≠ helper.id)
    (hpath : updated.Ancestor ancestor.id helper.id) (hcheck : check_restated C updated helper.id = .ok ()) :
    normalized_claim C ancestor ≠ normalized_claim C helper := by
  unfold check_restated at hcheck
  split at hcheck
  · cases hcheck
  · rename_i hnone
    intro hclaim
    refine List.find?_eq_none.mp hnone ancestor.id (Dag.mem_affected hpath) ?_
    rw [Dag.by_id_of_mem hdistinct hhelper, Dag.by_id_of_mem hdistinct hancestor, Option.map_some, Option.map_some, hclaim,
      beq_self_eq_true, Bool.and_true]
    exact decide_eq_true hne

/-- What a proposal that is applied went through. -/
structure Applied (C : CharClass) (repr dumps : Json → String) (dag updated : Dag) (proposal : Fields) (skeletons : Dict String Text)
    (max_nodes : Nat) (affected : Option (List String)) (draft : Draft) (whole : Dag) : Prop where
  taken : ∃ raw_nodes, (proposal.get? "nodes").getD (.arr []) = .arr raw_nodes ∧
    raw_nodes.foldlM (apply_node C repr dumps affected) { updated := dag } = .ok draft
  grown : whole = { draft.updated with revision := draft.updated.revision + 1 }
  valid : whole.validate max_nodes = .ok ()
  needed : ∀ id ∈ skeletons.keys, id ∈ whole.reachable
  claims : ∀ id ∈ skeletons.keys, check_restated C whole id = .ok ()
  pruned : updated = { whole with nodes := whole.nodes.filter fun node =>
    node.original || node.status == .proved || node.id ∈ whole.reachable }
  kept : updated.validate max_nodes = .ok ()
  skeletons_eq : skeletons = draft.skeletons

theorem applied_of_ok {dag updated : Dag} {max_nodes : Nat} {affected : Option (List String)} {proposal : Fields}
    {skeletons : Dict String Text}
    (happly : apply_proposal C repr dumps dag proposal max_nodes affected = .ok (updated, skeletons)) :
    ∃ draft whole, Applied C repr dumps dag updated proposal skeletons max_nodes affected draft whole := by
  unfold apply_proposal at happly
  split at happly
  · rename_i raw_nodes hraw
    obtain ⟨draft, hdraft, happly⟩ := bind_eq_ok.mp happly
    obtain ⟨_, hwhole, happly⟩ := bind_eq_ok.mp happly
    dsimp only at happly
    split at happly
    · cases happly
    · rename_i hneeded
      obtain ⟨_, hclaims, happly⟩ := bind_eq_ok.mp happly
      obtain ⟨_, hkept, happly⟩ := bind_eq_ok.mp happly
      obtain ⟨rfl, rfl⟩ := Prod.mk.inj (Except.ok.inj happly)
      refine ⟨draft, _, ⟨raw_nodes, hraw, hdraft⟩, rfl, hwhole, fun id hid => ?_, forM_eq_ok.mp hclaims, rfl, hkept, rfl⟩
      by_contra hnot
      exact hneeded (List.any_eq_true.mpr ⟨id, hid, decide_eq_true hnot⟩)
  · cases happly

theorem grown_of_applied {dag updated whole : Dag} {limit max_nodes : Nat} {affected : Option (List String)} {proposal : Fields}
    {skeletons : Dict String Text} {draft : Draft} (hvalid : dag.validate limit = .ok ())
    (h : Applied C repr dumps dag updated proposal skeletons max_nodes affected draft whole) : Grown dag affected draft := by
  obtain ⟨raw_nodes, -, hdraft⟩ := h.taken
  exact foldlM_preserves (fun _ _ _ _ hb h => grown_apply hb h) (grown_start (Dag.valid_of_validate hvalid) affected) hdraft

theorem ids_of_applied {dag updated whole : Dag} {limit max_nodes : Nat} {affected : Option (List String)} {proposal : Fields}
    {skeletons : Dict String Text} {draft : Draft} (hvalid : dag.validate limit = .ok ())
    (h : Applied C repr dumps dag updated proposal skeletons max_nodes affected draft whole) :
    whole.ids = dag.ids ++ skeletons.keys := by
  rw [h.skeletons_eq, ← (grown_of_applied hvalid h).ids, h.grown]
  rfl

/-- The graph without the nodes that are dropped is what is returned. -/
theorem pruned_of_applied {dag updated whole : Dag} {max_nodes : Nat} {affected : Option (List String)} {proposal : Fields}
    {skeletons : Dict String Text} {draft : Draft}
    (h : Applied C repr dumps dag updated proposal skeletons max_nodes affected draft whole) : Pruned whole updated := by
  obtain rfl := h.pruned
  refine ⟨rfl, fun node => ?_⟩
  rw [List.mem_filter, Bool.or_eq_true, Bool.or_eq_true, beq_iff_eq, decide_eq_true_eq,
    Dag.mem_reachable_iff (Dag.valid_of_validate h.valid), or_assoc]

/-- The graph that is returned preserves the old graph. -/
theorem preserved_of_applied {differ : Node → Node → Prop} {dag updated whole : Dag} {limit max_nodes : Nat}
    {affected : Option (List String)} {proposal : Fields} {skeletons : Dict String Text} {draft : Draft}
    (hlimit : dag.validate limit = .ok ())
    (happlied : Applied C repr dumps dag updated proposal skeletons max_nodes affected draft whole)
    (hclaims : ∀ helper ∈ whole.nodes, helper.id ∈ skeletons.keys → ∀ ancestor ∈ whole.nodes,
      ancestor.original = true ∨ ancestor.status = .proved ∨ whole.Reaches ancestor.id → ancestor.id ≠ helper.id →
      whole.Ancestor ancestor.id helper.id → differ ancestor helper) :
    Preserved differ dag updated skeletons max_nodes affected := by
  have h := grown_of_applied hlimit happlied
  have hpruned := pruned_of_applied happlied
  have hvalid := Dag.valid_of_validate happlied.valid
  have hkept := happlied.kept
  have hneeded := happlied.needed
  obtain rfl := happlied.skeletons_eq
  have hnodes : whole.nodes = draft.updated.nodes := by rw [happlied.grown]
  have hroots : whole.roots = draft.updated.roots := by rw [happlied.grown]
  have hids := ids_of_applied hlimit happlied
  have hdistinct := (Dag.valid_of_validate hkept).distinct
  have hreaches := hpruned.reaches hvalid hdistinct
  have hold (node : Node) (hnode : node ∈ dag.nodes) : ∃ new ∈ whole.nodes, Updated affected node new := by
    rw [hnodes]
    exact h.old node hnode
  have hupdated (node : Node) (hnode : node ∈ dag.nodes) (node' : Node) (hnode' : node' ∈ updated.nodes)
      (hid : node'.id = node.id) : Updated affected node node' := by
    obtain ⟨new, hnew, hupdated⟩ := hold node hnode
    obtain rfl := Dag.eq_of_id hvalid.distinct ((hpruned.nodes node').mp hnode').1 hnew (hid.trans hupdated.id.symm)
    exact hupdated
  exact {
    valid := hkept
    roots := hpruned.roots.trans (hroots.trans h.roots)
    kept := by
      intro node hnode hkeep
      obtain ⟨new, hnew, hupdated⟩ := hold node hnode
      rw [← hupdated.id]
      refine List.mem_map.mpr ⟨new, (hpruned.nodes new).mpr ⟨hnew, ?_⟩, rfl⟩
      rcases hkeep with horiginal | hproved
      · exact Or.inl (hupdated.original.trans horiginal)
      · exact Or.inr (Or.inl (hupdated.status_proved hproved).1)
    same := by
      intro node hnode node' hnode' hid
      have hupdated := hupdated node hnode node' hnode' hid
      exact ⟨hupdated.name, hupdated.statement, hupdated.file, hupdated.holes, hupdated.original, hupdated.status_proved⟩
    unaffected := by
      cases affected with
      | none => exact trivial
      | some ids =>
        intro node hnode hout node' hnode' hid
        exact (hupdated node hnode node' hnode' hid).outside (decide_eq_true hout)
    changed := by
      intro node hnode node' hnode' hid hchange
      rcases (hupdated node hnode node' hnode' hid).progress with ⟨hsame, -⟩ | hpending
      · exact absurd hsame hchange
      · exact hpending
    added := by
      intro id hid
      obtain ⟨node, hnode, rfl⟩ := List.mem_map.mp hid
      have hmem : node.id ∈ whole.ids := List.mem_map.mpr ⟨node, ((hpruned.nodes node).mp hnode).1, rfl⟩
      rw [hids] at hmem
      exact List.mem_append.mp hmem
    helpers := by
      intro id hid
      have hwhole_distinct := hvalid.distinct
      rw [hids] at hwhole_distinct
      have hnew : id ∉ dag.ids := fun hmem => (List.nodup_append.mp hwhole_distinct).2.2 id hmem id hid rfl
      have hmem : id ∈ whole.ids := by
        rw [hids]
        exact List.mem_append_right _ hid
      obtain ⟨helper, hhelper, rfl⟩ := List.mem_map.mp hmem
      have hreached := (Dag.mem_reachable_iff hvalid _).mp (hneeded _ hid)
      have hhelper' := hhelper
      rw [hnodes] at hhelper'
      obtain ⟨hplace, hothers⟩ := h.helpers helper hhelper' hid
      refine ⟨hnew, helper, (hpruned.nodes helper).mpr ⟨hhelper, Or.inr (Or.inr hreached)⟩, rfl, hplace,
        fun other hother hne => ?_, (hreaches _).mpr hreached, fun ancestor hancestor hne hpath => ?_⟩
      · have hmem := ((hpruned.nodes other).mp hother).1
        rw [hnodes] at hmem
        exact hothers other hmem hne
      · have hpath' : whole.Ancestor ancestor.id helper.id :=
          Relation.ReflTransGen.mono (fun _ _ hedge => hpruned.edge hvalid.distinct hedge) _ _ hpath
        obtain ⟨hmem, hkeep⟩ := (hpruned.nodes ancestor).mp hancestor
        exact hclaims helper hhelper hid ancestor hmem hkeep hne hpath'
    dropped := by
      intro node hnode hdropped
      obtain ⟨new, hnew, hupdated⟩ := hold node hnode
      have hnot : ¬(new.original = true ∨ new.status = .proved ∨ whole.Reaches new.id) := by
        intro hkeep
        rw [← hupdated.id] at hdropped
        exact hdropped (List.mem_map.mpr ⟨new, (hpruned.nodes new).mpr ⟨hnew, hkeep⟩, rfl⟩)
      obtain ⟨horiginal, hrest⟩ := not_or.mp hnot
      obtain ⟨hopen, hunreached⟩ := not_or.mp hrest
      refine ⟨fun hproved => hopen (hupdated.status_proved hproved).1, ?_, fun hreached => hunreached ?_⟩
      · rw [← hupdated.original]
        exact Bool.eq_false_iff.mpr horiginal
      · rw [hupdated.id]
        exact (hreaches _).mp hreached }

end Proposal

/-- The goal of the samples. -/
def sampleGoal : Node where
  id := "goal"
  name := "goal"
  file := "Main.lean"
  statement := "theorem goal : 1 = 1"
  original := true
  holes := [0]

end LeanFlow.Goals
