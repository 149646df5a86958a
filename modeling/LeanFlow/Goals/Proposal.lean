import LeanFlow.Cache.Closure
import LeanFlow.General.Except
import LeanFlow.General.Explore
import LeanFlow.General.Json
import LeanFlow.Goals.Dag
import LeanFlow.Source.Declarations

/-! Proposals of the orchestrator.

A proposal updates nodes of the graph and adds helpers. `apply_proposal` takes its nodes
in order, then validates the graph, checks that each helper is of use and says something
new, and drops what no root needs any more. -/
namespace LeanFlow.Goals
open General Source
open Cache (module_name)

/-! ### Values -/

section Values

variable (repr : Json → String)

/-- `str(value)`. -/
def str : Json → String
  | .str value => value
  | value => repr value

/-- `str(raw.get(name, default))`. -/
def str_field (raw : Fields) (name default : String) : String := ((raw.get? name).map (str repr)).getD default

end Values

/-- The strings of a list of strings. -/
def string_list : Json → Option (List String)
  | .arr items => items.mapM Json.text
  | _ => none

/-! ### Claims -/

/-- `^\s*(?:theorem|lemma|def|abbrev)\s+`. -/
def claim_keyword (C : CharClass) : Pattern :=
  .all [Pattern.start, .star (Pattern.space C), Pattern.texts "theorem" ["lemma", "def", "abbrev"], .plus (Pattern.space C)]

/-- `"(?:\\.|[^"\\])*"|«[^»]*»|\S`. -/
def claim_token (C : CharClass) : Pattern :=
  .any (.all [Pattern.text "\"",
      .star (.alt (.seq (Pattern.text "\\") (.one (· != '\n'))) (.one fun c => c != '"' && c != '\\')), Pattern.text "\""])
    [.all [Pattern.text "«", .star (.one (· != '»')), Pattern.text "»"], .one fun c => !C.space c]

/-- Ignore declaration names and formatting while preserving literals in a claim. -/
def normalized_claim (C : CharClass) (node : Node) : Text :=
  let statement := node.statement.toList
  let signature := (((claim_keyword C).matchStart statement).map (·.rest)).getD statement
  let signature := if node.name.toList.isPrefixOf signature then signature.drop node.name.length else signature
  ((claim_token C).findall signature.length none signature).flatten

/-! ### Errors -/

/-- The first place at which two texts differ. -/
def first_difference : Text → Text → Nat
  | c :: expected, d :: supplied => if c = d then first_difference expected supplied + 1 else 0
  | _, _ => 0

def excerpt (text : Text) (offset : Nat) : Json :=
  .str (if text.drop offset = [] then "<end of statement>" else String.ofList ((text.drop offset).take 80))

/-- Identify the exact copied-statement mismatch and the legal update for this node. -/
def immutable_statement_error (dumps : Json → String) (node : Node) (supplied : String) (is_root : Bool) : ValueError :=
  let expected := node.statement.toList
  let offset := first_difference expected supplied.toList
  let before := expected.take offset
  let repair := "For dependency or informal_justification updates, omit the statement field entirely; the controller retains its exact original text, including comments and whitespace. " ++
    if is_root || node.original then
      "This original declaration cannot be changed or replaced by a new helper ID. Keep its existing ID and express the plan through dependencies and helper declarations."
    else
      "To express a different helper claim, create a fresh helper ID and declaration name, then update its dependents. Preserve existing verified progress."
  let details : Json := .obj [("error_code", .str "immutable_statement"), ("node_id", .str node.id),
    ("node_name", .str node.name), ("file", .str node.file),
    ("node_kind", .str (if is_root then "original_root" else if node.original then "original_declaration" else "generated_helper")),
    ("first_difference", .obj [("line", .num (before.count '\n' + 1)),
      ("column", .num ((before.reverse.takeWhile (· ≠ '\n')).length + 1)),
      ("expected", excerpt expected offset), ("received", excerpt supplied.toList offset)]),
    ("repair", .str repair)]
  ⟨"existing statements are immutable: " ++ dumps details⟩

/-! ### The nodes of a proposal -/

/-- The graph that a proposal makes, and the helpers it added. -/
structure Draft where
  updated : Dag
  skeletons : Dict String Text := .empty

section Proposal

variable (C : CharClass) (repr dumps : Json → String)

/-- New dependencies make a node pending again. -/
def Node.depend (dependencies : List String) (node : Node) : Node :=
  if node.dependencies ≠ dependencies then { node with dependencies, revision := node.revision + 1, status := .pending }
  else node

/-- A planned node that the graph has: its dependencies and its justification may change. -/
def update_node (updated : Dag) (existing : Node) (raw : Fields) : Except ValueError Dag :=
  let statement := str_field repr raw "statement" existing.statement
  if statement ≠ existing.statement ∧ statement ≠ existing.statement ++ " := by sorry" then
    .error (immutable_statement_error dumps existing statement (existing.id ∈ updated.roots))
  else
    match string_list ((raw.get? "dependencies").getD (.arr (existing.dependencies.map .str))) with
    | none => .error ⟨"dependencies must be node IDs"⟩
    | some dependencies =>
      if existing.dependencies ≠ dependencies ∧ existing.status = .proved then
        .error ⟨"cannot rewrite dependencies of an independently proved node"⟩
      else
        let informal_justification := str_field repr raw "informal_justification" existing.informal_justification
        .ok (updated.update existing.id fun node => { node.depend dependencies with informal_justification })

/-- `(?m)^\s*(?:axiom|constant|namespace|section|end|import|set_option|run_cmd|#)\b`. -/
def other_command : Pattern :=
  .all [Pattern.line_start, .star (Pattern.space C),
    Pattern.texts "axiom" ["constant", "namespace", "section", "end", "import", "set_option", "run_cmd", "#"],
    Pattern.boundary C]

def one_declaration_message (node_id : String) : String :=
  "helper " ++ node_id ++ ": new nodes require one complete declaration with exactly one literal sorry. This ID is absent from the accepted current DAG. Helpers appearing only in previous_proposal or proposed_dag are still new: resend their full name, file and statement ending := by sorry, not a dependency-only update."

def other_commands_message (node_id : String) : String :=
  "helper " ++ node_id ++ ": helper skeleton must end at its single sorry and contain no other commands; omit file-level prefixes such as open scoped and use explicit names in its statement"

/-- The only declaration of a helper's text, which ends at its only hole. -/
def helper_entry (node_id : String) (skeleton : Text) : Except ValueError Entry := do
  let mask ← lean_code_mask skeleton
  let spans ← sorry_spans C skeleton
  match declaration_line_index_from_text C mask, spans with
  | [entry], [(_, hole_end)] =>
    let declaration_offset := (((split_lines mask).take (entry.line - 1)).map fun line => (line.1 ++ line.2).length).sum
    if strip C (mask.take declaration_offset) ≠ [] ∨ strip C (mask.drop hole_end) ≠ [] then
      .error ⟨other_commands_message node_id⟩
    else if String.ofList entry.kind ∉ ["theorem", "lemma", "def", "abbrev"] then
      .error ⟨"new nodes may be theorem, lemma, def, or abbrev declarations"⟩
    else .ok entry
  | _, _ => .error ⟨one_declaration_message node_id⟩

/-- A planned node that the graph lacks. -/
def new_node (updated : Dag) (node_id : String) (raw : Fields) : Except ValueError (Node × Text) := do
  let skeleton := (str_field repr raw "statement" "").toList
  let entry ← helper_entry C node_id skeleton
  let mask ← lean_code_mask skeleton
  let name := String.ofList entry.name
  if name ≠ str_field repr raw "name" "" then .error ⟨"planned name does not match its declaration"⟩
  else if updated.nodes.any (·.name = name) then .error ⟨"a helper may not shadow an existing graph declaration"⟩
  else if (Regex.search (other_command C) none mask).isSome then
    .error ⟨"a planned skeleton may contain only its declaration"⟩
  else
    let relative ← safe_relative_file (str_field repr raw "file" ("LeanFlowProofs/" ++ node_id ++ ".lean"))
    if ¬ "LeanFlowProofs/".toList.isPrefixOf relative.toList then .error ⟨"new helper modules must be under LeanFlowProofs/"⟩
    else if updated.nodes.any (·.file = relative) then .error ⟨"each new helper requires its own module"⟩
    else
      match string_list ((raw.get? "dependencies").getD (.arr [])) with
      | none => .error ⟨"dependencies must be node IDs"⟩
      | some dependencies =>
        .ok ({ id := node_id, name, file := relative, dependencies
               statement := String.ofList (declaration_statement_text C skeleton)
               module := module_name relative
               informal_justification := str_field repr raw "informal_justification" ""
               kind := String.ofList entry.kind
               holes := [0] }, skeleton)

/-- One planned node. -/
def apply_node (affected : Option (List String)) (draft : Draft) (raw : Json) : Except ValueError Draft :=
  match raw with
  | .obj raw =>
    let node_id := str_field repr raw "id" ""
    match draft.updated.by_id node_id with
    | some existing =>
      if affected.any (node_id ∉ ·) then .ok draft
      else do
        let updated ← update_node repr dumps draft.updated existing raw
        .ok { draft with updated }
    | none => do
      let (node, skeleton) ← new_node C repr draft.updated node_id raw
      .ok { updated := { draft.updated with nodes := draft.updated.nodes ++ [node] }
            skeletons := draft.skeletons.set node_id skeleton }
  | _ => .error ⟨"each planned node must be an object"⟩

/-! ### The whole proposal -/

namespace Dag

/-- The dependencies of the node of an id. -/
def dependencies (dag : Dag) (id : String) : List String := ((dag.by_id id).map (·.dependencies)).getD []

def ids (dag : Dag) : List String := dag.nodes.map (·.id)

/-- The nodes that the roots need. -/
def reachable (dag : Dag) : List String :=
  explore dag.dependencies (dag.roots.length + (dag.ids.map fun id => (dag.dependencies id).length).sum) dag.roots []

/-- A node of this id depends on the other. -/
def depends (dag : Dag) (id dep : String) : Bool := dag.nodes.any fun node => node.id == id && decide (dep ∈ node.dependencies)

/-- A changed node and every transitive dependent. -/
def affected (dag : Dag) (changed : String) : List String :=
  saturate dag.ids dag.depends (dag.nodes.length + 1) [changed]

end Dag

/-- An ancestor of a helper with the same claim. -/
def restated (updated : Dag) (helper_id : String) : Option String :=
  (updated.affected helper_id).find? fun ancestor_id =>
    ancestor_id ≠ helper_id &&
      ((updated.by_id helper_id).map (normalized_claim C) == (updated.by_id ancestor_id).map (normalized_claim C))

/-- No helper says what an ancestor says. -/
def check_restated (updated : Dag) (helper_id : String) : Except ValueError Unit :=
  match restated C updated helper_id with
  | some ancestor_id =>
    .error ⟨"helper " ++ helper_id ++ " restates ancestor " ++ ancestor_id ++ "; split a smaller obligation"⟩
  | none => .ok ()

/-- Apply a bounded proposal while retaining original statements and unrelated progress. -/
def apply_proposal (dag : Dag) (proposal : Fields) (max_nodes : Nat) (affected : Option (List String)) :
    Except ValueError (Dag × Dict String Text) :=
  match (proposal.get? "nodes").getD (.arr []) with
  | .arr raw_nodes => do
    let draft ← raw_nodes.foldlM (apply_node C repr dumps affected) { updated := dag }
    let updated := { draft.updated with revision := draft.updated.revision + 1 }
    updated.validate max_nodes
    let reachable := updated.reachable
    if draft.skeletons.keys.any (· ∉ reachable) then
      .error ⟨"new helper nodes must contribute to an original root"⟩
    else
      draft.skeletons.keys.forM (check_restated C updated)
      let kept := updated.nodes.filter fun node => node.original || node.status == .proved || node.id ∈ reachable
      let updated := { updated with nodes := kept }
      updated.validate max_nodes
      .ok (updated, draft.skeletons)
  | _ => .error ⟨"planning nodes must be a list"⟩

end Proposal

end LeanFlow.Goals
