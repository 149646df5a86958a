import LeanFlow.Source.Mask

/-! The dependency graph of declarations.

A node is a declaration with its authorized holes; edges go from a goal to its
prerequisites. A reference to a node is its id, as everywhere in the controller. -/
namespace LeanFlow.Goals
open Source

/-- The states of a node; `disproved` is the controller's `"false"`. -/
inductive NodeStatus where
  | pending
  | running
  | submitted
  | verifying
  | integrating
  | candidate
  | proved
  | retry
  | blocked
  | failed
  | disproved
deriving DecidableEq, Repr

/-- The status as a node has it. -/
def NodeStatus.value : NodeStatus → String
  | .pending => "pending"
  | .running => "running"
  | .submitted => "submitted"
  | .verifying => "verifying"
  | .integrating => "integrating"
  | .candidate => "candidate"
  | .proved => "proved"
  | .retry => "retry"
  | .blocked => "blocked"
  | .failed => "failed"
  | .disproved => "false"

theorem NodeStatus.value_injective : Function.Injective NodeStatus.value := by
  intro a b h
  cases a <;> cases b <;> first | rfl | exact absurd h (by decide)

structure Node where
  id : String
  name : String
  file : String
  statement : String := ""
  module : String := ""
  informal_justification : String := ""
  kind : String := "theorem"
  line_start : Nat := 0
  line_end : Nat := 0
  dependencies : List String := []
  conditional_dependencies : List String := []
  status : NodeStatus := .pending
  original : Bool := false
  holes : List Nat := []
  attempts : Nat := 0
  decompositions : Nat := 0
  revision : Nat := 0
  candidate : List Text := []
  candidate_imports : List String := []
  notes : String := ""
  proof_sha256 : String := ""
  signature_sha256 : String := ""
  signature_mutable_names : List String := []
deriving DecidableEq

structure Dag where
  nodes : List Node := []
  roots : List String := []
  revision : Nat := 0
deriving DecidableEq

namespace Dag

/-- The node of an id; ids are unique in a validated graph. -/
def by_id (dag : Dag) (id : String) : Option Node := dag.nodes.find? (·.id == id)

/-- Assign fields of the node with this id. -/
def update (dag : Dag) (id : String) (f : Node → Node) : Dag :=
  { dag with nodes := dag.nodes.map fun node => if node.id = id then f node else node }

theorem by_id_update (dag : Dag) {id : String} {f : Node → Node} (hf : ∀ node, (f node).id = node.id)
    (key : String) :
    (dag.update id f).by_id key = (dag.by_id key).map fun node => if node.id = id then f node else node := by
  have hid (node : Node) : (if node.id = id then f node else node).id = node.id := by
    split
    · exact hf node
    · rfl
  rw [by_id, by_id, update]
  induction dag.nodes with
  | nil => rfl
  | cons node nodes ih =>
    rw [List.map_cons, List.find?_cons, List.find?_cons, hid]
    split
    · rfl
    · exact ih

theorem id_of_by_id {dag : Dag} {id : String} {node : Node} (h : dag.by_id id = some node) :
    node.id = id := by
  simpa using List.find?_some h

end Dag

/-! ### Validation -/

/-- The components of a path. -/
def path_parts (value : String) : List Text :=
  (value.toList.splitOn '/').filter fun part => part ≠ [] ∧ part ≠ ['.']

/-- `path.suffix == ".lean"`. -/
def lean_suffix (value : String) : Bool :=
  let name := (path_parts value).getLast?.getD []
  ".lean".toList.isSuffixOf name && 5 < name.length

/-- Reject absolute paths, traversal and the directories the tools own. -/
def safe_relative_file (value : String) : Except ValueError String :=
  let parts := path_parts value
  if value.toList.head? = some '/' ∨ ['.', '.'] ∈ parts ∨ '\\' ∈ value.toList ∨ ¬ lean_suffix value then
    .error ⟨"invalid Lean source path: " ++ value⟩
  else if parts.head?.any (· ∈ [".lake", ".git", ".leanflow"].map String.toList) then
    .error ⟨"reserved Lean source path: " ++ value⟩
  else .ok (String.ofList (['/'].intercalate parts))

/-- What the validation of a graph reads of a node. -/
structure Shape where
  id : String
  name : String
  statement : String
  file : String
  dependencies : List String
deriving DecidableEq

def Node.shape (node : Node) : Shape := ⟨node.id, node.name, node.statement, node.file, node.dependencies⟩

/-- The checks of one node; the names of the earlier ones are taken. -/
def validate_node (ids : List String) (names : List (String × String)) (node : Shape) :
    Except ValueError (List (String × String)) := do
  let _ ← safe_relative_file node.file
  if node.id = "" ∨ node.name = "" ∨ node.statement = "" then
    .error ⟨"DAG nodes require id, name, and statement"⟩
  else if (node.file, node.name) ∈ names then .error ⟨"duplicate declaration in DAG"⟩
  else if ¬ node.dependencies.Nodup then .error ⟨"duplicate dependency"⟩
  else if node.dependencies.any (· ∉ ids) then .error ⟨"missing dependency of " ++ node.id⟩
  else .ok ((node.file, node.name) :: names)

/-- The depth-first search for a cycle; it is never deeper than there are nodes. -/
def visit (dependencies : String → List String) : Nat → List String → List String → String →
    Except ValueError (List String)
  | depth, visiting, visited, id =>
    if id ∈ visiting then .error ⟨"DAG contains a dependency cycle"⟩
    else if id ∈ visited then .ok visited
    else match depth with
      | 0 => .error ⟨"DAG contains a dependency cycle"⟩
      | depth + 1 => do
        let visited ← (dependencies id).foldlM (visit dependencies depth (id :: visiting)) visited
        .ok (id :: visited)

def validate_shapes (nodes : List Shape) (roots : List String) (max_nodes : Nat) : Except ValueError Unit := do
  let ids := nodes.map (·.id)
  if ¬ ids.Nodup ∨ max_nodes < nodes.length then
    .error ⟨"DAG contains duplicate IDs or exceeds its node limit"⟩
  else if roots.any (· ∉ ids) then .error ⟨"DAG root does not exist"⟩
  else
    let _ ← nodes.foldlM (validate_node ids) []
    let dependencies (id : String) := ((nodes.find? (·.id == id)).map (·.dependencies)).getD []
    let _ ← ids.foldlM (visit dependencies nodes.length []) []

namespace Dag

def shapes (dag : Dag) : List Shape := dag.nodes.map Node.shape

/-- Statuses, proofs and notes do not enter the validation. -/
def validate (dag : Dag) (max_nodes : Nat) : Except ValueError Unit :=
  validate_shapes dag.shapes dag.roots max_nodes

theorem shapes_update (dag : Dag) {id : String} {f : Node → Node} (hf : ∀ node, (f node).shape = node.shape) :
    (dag.update id f).shapes = dag.shapes := by
  rw [shapes, shapes, update, List.map_map]
  refine List.map_congr_left fun node _ => ?_
  show (if node.id = id then f node else node).shape = node.shape
  split
  · exact hf node
  · rfl

/-- Graphs of one shape have the same nodes. -/
theorem by_id_of_shapes {dag dag' : Dag} (h : dag.shapes = dag'.shapes) (id : String) :
    (dag.by_id id).map Node.shape = (dag'.by_id id).map Node.shape := by
  have hfind (nodes : List Node) :
      (nodes.find? (·.id == id)).map Node.shape = (nodes.map Node.shape).find? (·.id == id) := by
    rw [List.find?_map]
    rfl
  rw [by_id, by_id, hfind, hfind]
  exact congrArg _ h

end Dag

end LeanFlow.Goals
