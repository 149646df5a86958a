import LeanFlow.Goals.Validation

/-! The nodes that a job can start on.

`walk` orders the nodes that the roots need, each once: a node comes before its
prerequisites top-down and behind them otherwise. `ready_nodes` takes the runnable ones
of them, up to a limit. -/
namespace LeanFlow.Goals
open General Source

/-! ### The selection -/

/-- One step of the depth-first order: the nodes seen, and the order so far. It is never deeper than there are nodes. -/
def walk (dependencies : String → List String) (order : String) :
    Nat → List String × List String → String → List String × List String
  | 0, found, _ => found
  | depth + 1, (seen, ordered), id =>
    if id ∈ seen then (seen, ordered)
    else
      let found := (seen ++ [id], if order = "top-down" then ordered ++ [id] else ordered)
      let found := (dependencies id).foldl (walk dependencies order depth) found
      (found.1, if order ≠ "top-down" then found.2 ++ [id] else found.2)

/-- Definitions and trusted acceptance are bottom-up. -/
def requires_closed (order : String) (node : Node) : Bool :=
  decide (order ≠ "top-down") || decide (node.kind ∉ ["theorem", "lemma", "example"])

def runnable (dag : Dag) (order : String) (active : List String) (node : Node) : Bool :=
  let dependencies := node.dependencies.filterMap dag.by_id
  !decide (node.id ∈ active) && (node.status == .pending || node.status == .retry) &&
    !dependencies.any (fun dep => dep.status ∈ [.disproved, .failed, .blocked]) &&
    !(requires_closed order node && dependencies.any (·.status != .proved))

/-- Return runnable nodes, keeping definitions and trusted acceptance bottom-up. -/
def ready_nodes (dag : Dag) (order : String) (active : List String) (limit : Int) : Except ValueError (List Node) :=
  if limit ≤ 0 then .ok []
  else do
    dag.validate (max 128 dag.nodes.length)
    let found := dag.roots.foldl (walk dag.dependencies order dag.nodes.length) ([], [])
    .ok (((found.2.filterMap dag.by_id).filter (runnable dag order active)).take limit.toNat)

/-! ### The order -/

/-- What is known of a walk below the nodes of `stack`. -/
structure Walked (dependencies : String → List String) (order : String) (stack : List String) (found : List String × List String) :
    Prop where
  nodup : found.1.Nodup
  closed : ∀ id ∈ found.1, id ∉ stack → dependencies id ⊆ found.1
  down : order = "top-down" → found.2 = found.1
  up : order ≠ "top-down" → Layered dependencies found.2.reverse
  mem : order ≠ "top-down" → ∀ id, id ∈ found.1 ↔ id ∈ found.2 ∨ id ∈ stack
  apart : order ≠ "top-down" → ∀ id ∈ stack, id ∉ found.2

/-- A walk from `start` went on from `before`. -/
structure Went (dependencies : String → List String) (order : String) (ids stack start : List String)
    (before after : List String × List String) : Prop where
  walked : Walked dependencies order stack after
  inside : after.1 ⊆ ids
  subset : before.1 ⊆ after.1
  arrived : start ⊆ after.1
  path : ∀ id ∈ after.1, id ∈ before.1 ∨ ∃ s ∈ start, Relation.ReflTransGen (fun a b => b ∈ dependencies a) s id

section Walk

variable {dependencies : String → List String} {order : String} {ids : List String}

theorem fold_went {turn : List String × List String → String → List String × List String} {stack start : List String}
    {found : List String × List String} (hwalked : Walked dependencies order stack found) (hinside : found.1 ⊆ ids)
    (hturn : ∀ now, Walked dependencies order stack now → now.1 ⊆ ids → found.1 ⊆ now.1 → ∀ id ∈ start,
      Went dependencies order ids stack [id] now (turn now id)) :
    Went dependencies order ids stack start found (start.foldl turn found) := by
  induction start generalizing found with
  | nil => exact ⟨hwalked, hinside, fun _ h => h, List.nil_subset _, fun _ h => Or.inl h⟩
  | cons id start ih =>
    rw [List.foldl_cons]
    have hfirst := hturn found hwalked hinside (fun _ h => h) id (List.mem_cons_self ..)
    have hrest := ih hfirst.walked hfirst.inside fun now hnow hids hsub other hother =>
      hturn now hnow hids (fun x hx => hsub (hfirst.subset hx)) other (List.mem_cons_of_mem _ hother)
    refine ⟨hrest.walked, hrest.inside, fun x hx => hrest.subset (hfirst.subset hx),
      List.cons_subset.mpr ⟨hrest.subset (hfirst.arrived (List.mem_singleton_self id)), hrest.arrived⟩, fun x hx => ?_⟩
    rcases hrest.path x hx with hmem | ⟨s, hs, hpath⟩
    · rcases hfirst.path x hmem with hmem | ⟨s, hs, hpath⟩
      · exact Or.inl hmem
      · exact Or.inr ⟨s, List.mem_singleton.mp hs ▸ List.mem_cons_self .., hpath⟩
    · exact Or.inr ⟨s, List.mem_cons_of_mem _ hs, hpath⟩

/-- The node is seen, and its prerequisites are next. -/
theorem Walked.enter {stack : List String} {found : List String × List String} (h : Walked dependencies order stack found)
    {id : String} (hnew : id ∉ found.1) :
    Walked dependencies order (id :: stack) (found.1 ++ [id], if order = "top-down" then found.2 ++ [id] else found.2) := by
  refine ⟨?_, fun x hx hstack => ?_, fun hdown => ?_, fun hup => ?_, fun hup x => ?_, fun hup x hx => ?_⟩
  · rw [List.nodup_append]
    exact ⟨h.nodup, List.nodup_singleton id, fun x hx y hy heq => hnew (List.mem_singleton.mp hy ▸ heq ▸ hx)⟩
  · obtain ⟨hne, hstack⟩ := not_or.mp (List.mem_cons.not.mp hstack)
    have hx : x ∈ found.1 := (List.mem_append.mp hx).resolve_right fun hmem => hne (List.mem_singleton.mp hmem)
    exact fun y hy => List.mem_append_left _ (h.closed x hx hstack hy)
  · rw [if_pos hdown]
    dsimp only
    rw [h.down hdown]
  · rw [if_neg hup]
    exact h.up hup
  · rw [if_neg hup, List.mem_append, h.mem hup, List.mem_singleton, List.mem_cons]
    tauto
  · rw [if_neg hup]
    rcases List.mem_cons.mp hx with rfl | hx
    · exact fun hmem => hnew ((h.mem hup x).mpr (Or.inl hmem))
    · exact h.apart hup x hx

/-- The prerequisites of the node are seen. -/
theorem Walked.leave {stack : List String} {found : List String × List String} {id : String}
    (h : Walked dependencies order (id :: stack) found) (hsub : dependencies id ⊆ found.1) (hnew : id ∉ stack)
    (hcycle : ∀ x ∈ dependencies id, x ∉ id :: stack) :
    Walked dependencies order stack (found.1, if order ≠ "top-down" then found.2 ++ [id] else found.2) := by
  refine ⟨h.nodup, fun x hx hstack => ?_, fun hdown => ?_, fun hup => ?_, fun hup x => ?_, fun hup x hx => ?_⟩
  · by_cases hid : x = id
    · exact hid ▸ hsub
    · exact h.closed x hx (List.mem_cons.not.mpr (not_or.mpr ⟨hid, hstack⟩))
  · rw [if_neg (not_not.mpr hdown)]
    exact h.down hdown
  · rw [if_pos hup, List.reverse_append]
    refine ⟨fun x hx => List.mem_reverse.mpr ?_, fun hmem => h.apart hup id (List.mem_cons_self ..) (List.mem_reverse.mp hmem), h.up hup⟩
    exact ((h.mem hup x).mp (hsub hx)).resolve_right (hcycle x hx)
  · rw [if_pos hup, h.mem hup, List.mem_append, List.mem_singleton, List.mem_cons, or_assoc]
  · rw [if_pos hup, List.mem_append, List.mem_singleton, not_or]
    exact ⟨h.apart hup x (List.mem_cons_of_mem _ hx), fun heq => hnew (heq ▸ hx)⟩

theorem walk_went (hacyclic : Acyclic dependencies) (hids : ∀ id ∈ ids, dependencies id ⊆ ids) (depth : Nat) (stack : List String)
    (found : List String × List String) (id : String) (hwalked : Walked dependencies order stack found) (hinside : found.1 ⊆ ids)
    (hid : id ∈ ids) (hstack : ∀ other ∈ stack, other ∈ found.1 ∧ Needs dependencies other id)
    (hdepth : ids.length ≤ depth + found.1.length) :
    Went dependencies order ids stack [id] found (walk dependencies order depth found id) := by
  have hhere (hmem : id ∈ found.1) : Went dependencies order ids stack [id] found found :=
    ⟨hwalked, hinside, fun _ h => h, List.cons_subset.mpr ⟨hmem, List.nil_subset _⟩, fun _ h => Or.inl h⟩
  have hroom (hnew : id ∉ found.1) : found.1.length + 1 ≤ ids.length :=
    ((List.nodup_cons.mpr ⟨hnew, hwalked.nodup⟩).subperm (List.cons_subset.mpr ⟨hid, hinside⟩)).length_le
  induction depth generalizing stack found id with
  | zero =>
    by_cases hmem : id ∈ found.1
    · exact hhere hmem
    · have := hroom hmem
      omega
  | succ depth ih =>
    by_cases hmem : id ∈ found.1
    · obtain ⟨seen, ordered⟩ := found
      unfold walk
      rw [if_pos hmem]
      exact hhere hmem
    · have hcycle : ∀ x ∈ dependencies id, x ∉ id :: stack := by
        intro x hx hstacked
        rcases List.mem_cons.mp hstacked with rfl | hstacked
        · exact hacyclic x (.single hx)
        · exact hacyclic x ((hstack x hstacked).2.tail hx)
      have hentered := hwalked.enter hmem
      have hsub : found.1 ++ [id] ⊆ ids := List.append_subset.mpr ⟨hinside, List.cons_subset.mpr ⟨hid, List.nil_subset _⟩⟩
      have hbelow := @fold_went _ _ ids (walk dependencies order depth) _ (dependencies id) _ hentered hsub
        fun now hnow hnowids hgrown other hother => by
          have hlength : (found.1 ++ [id]).length ≤ now.1.length := (hentered.nodup.subperm hgrown).length_le
          rw [List.length_append, List.length_singleton] at hlength
          refine ih (id :: stack) now other hnow hnowids (hids id hid hother) (fun x hx => ?_) (by omega) ?_ ?_
          · rcases List.mem_cons.mp hx with rfl | hx
            · exact ⟨hgrown (List.mem_append_right _ (List.mem_singleton_self x)), .single hother⟩
            · exact ⟨hgrown (List.mem_append_left _ (hstack x hx).1), (hstack x hx).2.tail hother⟩
          · exact fun hmem => ⟨hnow, hnowids, fun _ h => h, List.cons_subset.mpr ⟨hmem, List.nil_subset _⟩, fun _ h => Or.inl h⟩
          · exact fun hnew => ((List.nodup_cons.mpr ⟨hnew, hnow.nodup⟩).subperm
              (List.cons_subset.mpr ⟨hids id hid hother, hnowids⟩)).length_le
      have hleft := hbelow.walked.leave hbelow.arrived (fun hstacked => hmem (hstack id hstacked).1) hcycle
      obtain ⟨seen, ordered⟩ := found
      unfold walk
      rw [if_neg hmem]
      refine ⟨hleft, hbelow.inside, fun x hx => hbelow.subset (List.mem_append_left _ hx),
        List.cons_subset.mpr ⟨hbelow.subset (List.mem_append_right _ (List.mem_singleton_self id)), List.nil_subset _⟩, fun x hx => ?_⟩
      rcases hbelow.path x hx with hx | ⟨s, hs, hpath⟩
      · rcases List.mem_append.mp hx with hx | hx
        · exact Or.inl hx
        · exact Or.inr ⟨id, List.mem_singleton_self id, List.mem_singleton.mp hx ▸ .refl⟩
      · exact Or.inr ⟨id, List.mem_singleton_self id, .head hs hpath⟩

end Walk

namespace Dag

/-- The nodes that the roots need, in the order of the walk. -/
def ordered (dag : Dag) (order : String) : List String :=
  (dag.roots.foldl (walk dag.dependencies order dag.nodes.length) ([], [])).2

variable {dag : Dag} {order : String} {max_nodes : Nat}

theorem Wellformed.acyclic_dependencies (h : dag.Wellformed max_nodes) : Acyclic dag.dependencies :=
  (acyclic_iff h.distinct).mpr h.acyclic

theorem Wellformed.dependencies_subset (h : dag.Wellformed max_nodes) (id : String) : dag.dependencies id ⊆ dag.ids :=
  dependencies_present (fun node hnode => (h.nodes node hnode).2.2.2.2.2) id

theorem Wellformed.went (h : dag.Wellformed max_nodes) (order : String) :
    Went dag.dependencies order dag.ids [] dag.roots ([], []) (dag.roots.foldl (walk dag.dependencies order dag.nodes.length) ([], [])) := by
  have hlength : dag.ids.length = dag.nodes.length := List.length_map ..
  refine fold_went ⟨List.nodup_nil, fun _ h => absurd h List.not_mem_nil, fun _ => rfl, fun _ => trivial, fun _ _ => by simp,
    fun _ _ h => absurd h List.not_mem_nil⟩ (List.nil_subset _) fun now hnow hinside _ id hid => ?_
  exact walk_went h.acyclic_dependencies (fun id _ => h.dependencies_subset id) dag.nodes.length [] now id hnow hinside
    (h.roots hid) (fun _ hother => absurd hother List.not_mem_nil) (hlength ▸ Nat.le_add_right _ _)

theorem Wellformed.ordered_nodup (h : dag.Wellformed max_nodes) (order : String) : (dag.ordered order).Nodup := by
  have hwalked := (h.went order).walked
  by_cases hdown : order = "top-down"
  · rw [ordered, hwalked.down hdown]
    exact hwalked.nodup
  · exact List.nodup_reverse.mp (hwalked.up hdown).nodup

theorem Wellformed.mem_ordered (h : dag.Wellformed max_nodes) (order id : String) : id ∈ dag.ordered order ↔ dag.Reaches id := by
  have hwent := h.went order
  have hseen : id ∈ dag.ordered order ↔ id ∈ (dag.roots.foldl (walk dag.dependencies order dag.nodes.length) ([], [])).1 := by
    by_cases hdown : order = "top-down"
    · rw [ordered, hwent.walked.down hdown]
    · rw [hwent.walked.mem hdown, or_iff_left List.not_mem_nil]
      rfl
  rw [hseen]
  constructor
  · intro hid
    exact (hwent.path id hid).resolve_left List.not_mem_nil
  · rintro ⟨root, hroot, hpath⟩
    clear hseen
    induction hpath with
    | refl => exact hwent.arrived hroot
    | tail _ hstep ih => exact hwent.walked.closed _ ih List.not_mem_nil hstep

/-- Bottom-up no node needs a later one. -/
theorem Wellformed.ordered_pairwise (h : dag.Wellformed max_nodes) (hup : order ≠ "top-down") :
    (dag.ordered order).Pairwise fun earlier later => ¬Needs dag.dependencies earlier later := by
  have hpairwise := ((h.went order).walked.up hup).pairwise
  exact List.pairwise_reverse.mp hpairwise

theorem Wellformed.ordered_subset (h : dag.Wellformed max_nodes) (order : String) : dag.ordered order ⊆ dag.ids := by
  intro id hid
  obtain ⟨root, hroot, hpath⟩ := (h.mem_ordered order id).mp hid
  induction hpath with
  | refl => exact h.roots hroot
  | tail _ hstep _ => exact h.dependencies_subset _ hstep

theorem ids_of_nodes {ids : List String} (h : ids ⊆ dag.ids) : (ids.filterMap dag.by_id).map (·.id) = ids := by
  induction ids with
  | nil => rfl
  | cons id ids ih =>
    obtain ⟨hid, hids⟩ := List.cons_subset.mp h
    obtain ⟨node, hnode, rfl⟩ := List.mem_map.mp hid
    cases hfound : dag.by_id node.id with
    | none =>
      have hnone := List.find?_eq_none.mp hfound node hnode
      simp at hnone
    | some found =>
      rw [List.filterMap_cons_some hfound, List.map_cons, ih hids, id_of_by_id hfound]

end Dag

/-! ### The runnable nodes -/

/-- A node that a job can start on. -/
structure Ready (dag : Dag) (order : String) (active : List String) (node : Node) : Prop where
  reached : dag.Reaches node.id
  inactive : node.id ∉ active
  waiting : node.status = .pending ∨ node.status = .retry
  possible : ∀ dep ∈ node.dependencies, ∀ prerequisite, dag.by_id dep = some prerequisite →
    prerequisite.status ∉ [.disproved, .failed, .blocked]
  closed : order ≠ "top-down" ∨ node.kind ∉ ["theorem", "lemma", "example"] →
    ∀ dep ∈ node.dependencies, ∀ prerequisite, dag.by_id dep = some prerequisite → prerequisite.status = .proved

theorem runnable_iff {dag : Dag} {order : String} {active : List String} {node : Node} (hreached : dag.Reaches node.id) :
    runnable dag order active node = true ↔ Ready dag order active node := by
  have hclosed : requires_closed order node = true ↔ order ≠ "top-down" ∨ node.kind ∉ ["theorem", "lemma", "example"] := by
    simp only [requires_closed, Bool.or_eq_true, decide_eq_true_eq]
  have hmem (p : Node → Bool) : (node.dependencies.filterMap dag.by_id).any p = false ↔
      ∀ dep ∈ node.dependencies, ∀ prerequisite, dag.by_id dep = some prerequisite → p prerequisite = false := by
    simp only [List.any_eq_false, List.mem_filterMap, Bool.not_eq_true]
    exact ⟨fun h dep hdep prerequisite hfound => h prerequisite ⟨dep, hdep, hfound⟩,
      fun h prerequisite ⟨dep, hdep, hfound⟩ => h dep hdep prerequisite hfound⟩
  unfold runnable
  simp only [Bool.and_eq_true, Bool.not_eq_true', decide_eq_false_iff_not, Bool.or_eq_true, beq_iff_eq, hmem,
    Bool.and_eq_false_imp, hclosed, bne_eq_false_iff_eq]
  exact ⟨fun ⟨⟨⟨hinactive, hwaiting⟩, hpossible⟩, hclosed⟩ => ⟨hreached, hinactive, hwaiting, hpossible, hclosed⟩,
    fun h => ⟨⟨⟨h.inactive, h.waiting⟩, h.possible⟩, h.closed⟩⟩

namespace Dag

variable {dag : Dag} {order : String} {max_nodes : Nat}

/-- The runnable nodes, in order. -/
def candidates (dag : Dag) (order : String) (active : List String) : List Node :=
  ((dag.ordered order).filterMap dag.by_id).filter (runnable dag order active)

theorem Wellformed.ready_nodes_eq (h : dag.Wellformed max_nodes) (order : String) (active : List String) (limit : Int) :
    ready_nodes dag order active limit = .ok ((dag.candidates order active).take limit.toNat) := by
  unfold ready_nodes
  split
  · rename_i hlimit
    rw [Int.toNat_of_nonpos hlimit, List.take_zero]
  · have hvalid : dag.validate (max 128 dag.nodes.length) = .ok () :=
      (dag.validate_iff _).mpr { h with within := Nat.le_max_right .. }
    rw [hvalid]
    rfl

theorem Wellformed.mem_candidates (h : dag.Wellformed max_nodes) (active : List String) (node : Node) :
    node ∈ dag.candidates order active ↔ node ∈ dag.nodes ∧ Ready dag order active node := by
  unfold candidates
  rw [List.mem_filter, List.mem_filterMap]
  constructor
  · rintro ⟨⟨id, hid, hnode⟩, hrunnable⟩
    have hreached := (h.mem_ordered order id).mp hid
    rw [← id_of_by_id hnode] at hreached
    exact ⟨mem_of_by_id hnode, (runnable_iff hreached).mp hrunnable⟩
  · rintro ⟨hnode, hready⟩
    exact ⟨⟨node.id, (h.mem_ordered order node.id).mpr hready.reached, by_id_of_mem h.distinct hnode⟩,
      (runnable_iff hready.reached).mpr hready⟩

theorem Wellformed.candidates_sublist (h : dag.Wellformed max_nodes) (active : List String) :
    ((dag.candidates order active).map (·.id)).Sublist (dag.ordered order) := by
  have hsublist : ((dag.candidates order active).map (·.id)).Sublist (((dag.ordered order).filterMap dag.by_id).map (·.id)) :=
    List.filter_sublist.map _
  rwa [ids_of_nodes (h.ordered_subset order)] at hsublist

/-- With every unproved node waiting, some of them have all their prerequisites proved. -/
theorem Wellformed.exists_ready (h : dag.Wellformed max_nodes) (order : String) {root : Node} (hroot : root ∈ dag.nodes)
    (hgoal : root.id ∈ dag.roots) (hopen : root.status ≠ .proved)
    (hwaiting : ∀ node ∈ dag.nodes, dag.Reaches node.id → node.status ≠ .proved → node.status = .pending ∨ node.status = .retry) :
    ∃ node ∈ dag.nodes, Ready dag order [] node := by
  have hlayered := (h.went "bottom-up").walked.up (by decide)
  have hmem : root.id ∈ (dag.ordered "bottom-up").reverse :=
    List.mem_reverse.mpr ((h.mem_ordered _ _).mpr ⟨root.id, hgoal, .refl⟩)
  obtain ⟨id, hpath, ⟨node, hnode, rfl, hunproved⟩, hlast⟩ :=
    hlayered.exists_last (P := fun id => ∃ node ∈ dag.nodes, node.id = id ∧ node.status ≠ .proved) hmem ⟨root, hroot, rfl, hopen⟩
  have hreached : dag.Reaches node.id := ⟨root.id, hgoal, hpath⟩
  have hproved : ∀ dep ∈ node.dependencies, ∀ prerequisite, dag.by_id dep = some prerequisite → prerequisite.status = .proved := by
    intro dep hdep prerequisite hfound
    by_contra hstatus
    refine hlast dep ?_ ⟨prerequisite, mem_of_by_id hfound, id_of_by_id hfound, hstatus⟩
    rw [dependencies_of_mem h.distinct hnode]
    exact hdep
  refine ⟨node, hnode, hreached, List.not_mem_nil, hwaiting node hnode hreached hunproved, fun dep hdep prerequisite hfound => ?_,
    fun _ => hproved⟩
  rw [hproved dep hdep prerequisite hfound]
  decide

end Dag

theorem ready_nodes_exact (dag : Dag) (order : String) (active : List String) (limit : Int) (max_nodes : Nat)
    (h : dag.validate max_nodes = .ok ()) : ∃ result, ready_nodes dag order active limit = .ok result ∧
      result.Nodup ∧ (result.length : Int) ≤ max 0 limit ∧ (∀ node ∈ result, node ∈ dag.nodes ∧ Ready dag order active node) ∧
      (order ≠ "top-down" → (result.map (·.id)).Pairwise fun earlier later => ¬Needs dag.dependencies earlier later) ∧
      (∀ node ∈ result, requires_closed order node = true → ∀ dep ∈ node.dependencies, dep ∉ result.map (·.id)) ∧
      ((dag.nodes.length : Int) ≤ limit → ∀ node ∈ dag.nodes, Ready dag order active node → node ∈ result) ∧
      (0 < limit → active = [] → (∃ node ∈ dag.nodes, node.id ∈ dag.roots ∧ node.status ≠ .proved) →
        (∀ node ∈ dag.nodes, dag.Reaches node.id → node.status ≠ .proved → node.status = .pending ∨ node.status = .retry) →
        result ≠ []) := by
  have hwell := (dag.validate_iff max_nodes).mp h
  have htaken : ((dag.candidates order active).take limit.toNat).Sublist (dag.candidates order active) := List.take_sublist ..
  have hordered := (htaken.map (·.id)).trans (hwell.candidates_sublist active)
  refine ⟨_, hwell.ready_nodes_eq order active limit, ?_, ?_, ?_, ?_, ?_, ?_, ?_⟩
  · exact List.Nodup.of_map _ (hordered.nodup (hwell.ordered_nodup order))
  · have := List.length_take_le limit.toNat (dag.candidates order active)
    omega
  · exact fun node hnode => (hwell.mem_candidates active node).mp (htaken.subset hnode)
  · exact fun hup => (hwell.ordered_pairwise hup).sublist hordered
  · intro node hnode hrequires dep hdep hmem
    obtain ⟨prerequisite, hprerequisite, rfl⟩ := List.mem_map.mp hmem
    obtain ⟨hthere, hready⟩ := (hwell.mem_candidates active prerequisite).mp (htaken.subset hprerequisite)
    have hclosed : order ≠ "top-down" ∨ node.kind ∉ ["theorem", "lemma", "example"] := by
      simpa only [requires_closed, Bool.or_eq_true, decide_eq_true_eq] using hrequires
    have hproved := ((hwell.mem_candidates active node).mp (htaken.subset hnode)).2.closed hclosed prerequisite.id hdep prerequisite
      (Dag.by_id_of_mem hwell.distinct hthere)
    have hwaiting := hready.waiting
    rw [hproved] at hwaiting
    exact absurd hwaiting (by decide)
  · intro hlimit node hnode hready
    have hlength : (dag.candidates order active).length ≤ dag.nodes.length := by
      have hids : dag.ids.length = dag.nodes.length := List.length_map ..
      have hsub := ((hwell.candidates_sublist active).nodup (hwell.ordered_nodup order)).subperm
        (fun id hid => hwell.ordered_subset order ((hwell.candidates_sublist active).subset hid))
      have := hsub.length_le
      rw [List.length_map] at this
      omega
    rw [List.take_of_length_le (by omega)]
    exact (hwell.mem_candidates active node).mpr ⟨hnode, hready⟩
  · rintro hlimit rfl ⟨root, hroot, hgoal, hopen⟩ hwaiting hnone
    obtain ⟨node, hnode, hready⟩ := hwell.exists_ready order hroot hgoal hopen hwaiting
    have hmem := (hwell.mem_candidates [] node).mpr ⟨hnode, hready⟩
    rcases List.take_eq_nil_iff.mp hnone with hzero | hempty
    · omega
    · rw [hempty] at hmem
      cases hmem

/-- The goal of the samples waits for itself alone. -/
theorem sample_ready : ∃ result, ready_nodes { nodes := [sampleGoal], roots := ["goal"] } "bottom-up" [] 4 = .ok result ∧ result ≠ [] := by
  have hvalid : ({ nodes := [sampleGoal], roots := ["goal"] } : Dag).validate 8 = .ok () := by decide
  obtain ⟨result, hresult, -, -, -, -, -, -, hprogress⟩ :=
    ready_nodes_exact { nodes := [sampleGoal], roots := ["goal"] } "bottom-up" [] 4 8 hvalid
  refine ⟨result, hresult, hprogress (by decide) rfl ⟨sampleGoal, List.mem_singleton_self _, by decide, by decide⟩ fun node hnode _ _ => ?_⟩
  rw [List.mem_singleton.mp hnode]
  exact Or.inl rfl

end LeanFlow.Goals
