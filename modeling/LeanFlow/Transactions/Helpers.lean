import LeanFlow.General.Worklist
import LeanFlow.Goals.Ready
import LeanFlow.Transactions.Proof

/-! The modules of the helpers, in the order of their imports.

New helpers are written, and changed ones compiled, in rounds: a round takes those that
depend on no helper still to be done. In a valid graph the rounds end, and each loop is one
pass over `helper_order`, which takes every helper once and after those it depends on. -/
namespace LeanFlow.Transactions
open General Goals Source

/-- `sorted(values)`. -/
def sorted (values : List String) : List String := values.mergeSort fun a b => a ≤ b

theorem sorted_perm (values : List String) : (sorted values).Perm values := List.mergeSort_perm ..

/-- The order in which the loops take the pending helpers. -/
def helper_order (dag : Dag) (pending : List String) : List String :=
  rounds dag.dependencies sorted pending.length pending

/-- `while pending`. -/
def helper_loop {β : Type} (dag : Dag) (step : β → String → Controller β) (pending : List String) (result : β) : Controller β :=
  work dag.dependencies sorted (.raise (.value_error ⟨"helper module cycle"⟩)) step pending.length pending result

section Helpers

variable (C : CharClass)

/-! ### New helpers -/

inductive MaterializeStep where
  | directory (id : String)
  | write (id : String) (step : WriteStep)
deriving DecidableEq

/-- `index[id].module`. -/
def module_of (dag : Dag) (id : String) : Except Raised String :=
  match dag.by_id id with
  | some node => .ok node.module
  | none => .error (.key_error id)

/-- `sorted(set(original_imports + [index[dep].module for dep in node.dependencies]))`. -/
def helper_modules (dag : Dag) (original_imports : List String) (node : Node) : Except Raised (List String) :=
  (node.dependencies.mapM (module_of dag)).map fun modules => sorted (original_imports ++ modules).dedup

/-- Dependency imports are kept apart from the baseline, so that they can be removed. -/
def helper_document (original_imports modules : List String) (node : Node) (skeleton : Text) : SourceDocument where
  path := node.file
  baseline := ['\n'].intercalate (original_imports.map fun name => ("import " ++ name).toList) ++ ['\n', '\n'] ++ skeleton ++ ['\n']
  imports := modules.filter (· ∉ original_imports)
  generated := true

section New

variable (size : MaterializationJournal → Nat) (fails : MaterializeStep → Bool) (dag : Dag)
  (original_imports original_modules : List String) (skeletons : Dict String Text)

/-- Write the module of a new helper. -/
def materialize_helper (made : MaterializationJournal × Documents) (id : String) :
    Controller (MaterializationJournal × Documents) :=
  match dag.by_id id, skeletons.get? id with
  | some node, some skeleton => do
    let modules ← Prog.ofExcept (helper_modules dag original_imports node)
    if node.module ∈ modules ∨ ∃ module ∈ original_modules, module ∈ modules then
      .raise (.value_error ⟨"helper would import an original goal module or itself"⟩)
    else do
      let document := helper_document original_imports modules node skeleton
      let path := normal_path node.file
      let w ← Prog.get
      if (w.disk.files.get? path).isSome then .raise (.value_error ⟨"helper path already exists: " ++ node.file⟩)
      else do
        failing (fails (.directory id)) .os_error
        let text ← checked (document.render C [])
        let journal ← materialized_write C size (fun step => fails (.write id step)) made.1 path (some text) none true
        return (journal, made.2.set node.file document)
  | _, _ => .raise (.key_error id)

/-- `index[id]` of every id. -/
def check_index (ids : List String) : Except Raised Unit :=
  ids.forM fun id => if (dag.by_id id).isSome then .ok () else .error (.key_error id)

def materialize_helpers (made : MaterializationJournal × Documents) : Controller (MaterializationJournal × Documents) := do
  Prog.ofExcept (check_index dag skeletons.keys)
  helper_loop dag (materialize_helper C size fails dag original_imports original_modules skeletons) skeletons.keys made

end New

/-! ### Changed helpers -/

/-- What the compiler said of a module. -/
inductive Checked where
  | accepted (artifact : Text)
  | infrastructure (result : String)
  | rejected (result : String)
deriving DecidableEq

inductive CompileStep where
  | active (id : String)
  | journal (id : String)
  | call (id : String)
  | compile (id : String)
  | returned (id : String)
  | stopped (id : String)
  | publish (id : String)
deriving DecidableEq

/-- A helper whose text is new, or whose artifact is missing. -/
def helper_changed (documents : Documents) (w : World) (node : Node) : Except Raised Bool :=
  if node.original then .ok false
  else
    match w.documents.get? node.file with
    | none => .ok true
    | some before =>
      match documents.get? node.file with
      | none => .error (.key_error node.file)
      | some after => do
        let text ← (after.render C []).mapError .value_error
        let text' ← (before.render C []).mapError .value_error
        .ok (decide (text ≠ text') || (w.disk.files.get? (artifact_path node.file)).isNone)

def changed_helpers (dag : Dag) (documents : Documents) (w : World) : Except Raised (List String) :=
  (dag.nodes.mapM fun node => (helper_changed C documents w node).map fun changed =>
    if changed then some node.id else none).map List.reduceOption

/-- The helpers that a change reaches. -/
def affected_helpers (dag : Dag) (changed : List String) : List String :=
  (changed.flatMap dag.affected).dedup.filter fun id => (dag.by_id id).any (!·.original)

section Compile

variable (size : MaterializationJournal → Nat) (fails : CompileStep → Bool) (shown : Node → NodeStatus)
  (checks : String → Checked) (dag : Dag) (outer : Bool)

/-- Build one artifact; it is replaced only when the compiler accepts the module. -/
def compile_module (id file : String) : Controller Unit := do
  let _ ← checked (safe_relative_file file)
  failing (fails (.compile id)) .os_error
  match checks id with
  | .accepted artifact => Prog.modify (World.writeFile (artifact_path file) artifact)
  | _ => return

/-- Whether the check of a helper lets the loop go on. -/
def require_accepted (id : String) : Controller Unit :=
  match checks id with
  | .accepted _ => return
  | .infrastructure result => do
    failing (fails (.stopped id)) (.infrastructure "interrupted" "")
    .raise (.infrastructure "environment_error" ("Helper compilation infrastructure failed: " ++ result))
  | .rejected result => .raise (.runtime_error result)

/-- One turn; `outer` says whether a running graph validation reports the progress. -/
def compile_helper (journal : MaterializationJournal) (id : String) : Controller MaterializationJournal :=
  match dag.by_id id with
  | none => .raise (.key_error id)
  | some node => do
    failing (fails (.active id)) (.infrastructure "interrupted" "")
    let journal ← record_compilation size (fails (.journal id)) journal node.file
    progress_call shown (fails (.call id)) (fails (.returned id)) (compile_module fails checks id node.file)
    require_accepted fails checks id
    (if outer then publish (fails (.publish id)) shown else pure ())
    return journal

/-- Compile what the changed helpers reach. -/
def compile_affected (changed : List String) (journal : MaterializationJournal) : Controller MaterializationJournal := do
  (if outer then with_lock (return) else pure ())
  helper_loop dag (compile_helper size fails shown checks dag outer) (affected_helpers dag changed) journal

/-- Recompile changed helpers and their dependents without trusting stale artifacts. -/
def compile_changed_helpers (documents : Documents) (journal : MaterializationJournal) : Controller MaterializationJournal := do
  let w ← Prog.get
  let changed ← Prog.ofExcept (changed_helpers C dag documents w)
  compile_affected size fails shown checks dag outer changed journal

end Compile

end Helpers

/-! ### The order -/

section Order

variable {dag : Dag} {max_nodes : Nat}

theorem helper_order_perm (h : dag.Wellformed max_nodes) {pending : List String} (hpending : pending.Nodup) :
    (helper_order dag pending).Perm pending :=
  rounds_perm sorted_perm h.acyclic_dependencies hpending le_rfl

/-- No helper is taken before one it needs through pending helpers. -/
theorem helper_order_pairwise (h : dag.Wellformed max_nodes) {pending : List String} (hpending : pending.Nodup) :
    (helper_order dag pending).Pairwise fun earlier later => ¬Needs (within dag.dependencies pending) earlier later :=
  rounds_pairwise sorted_perm h.acyclic_dependencies hpending le_rfl

/-- The loop is a pass over the helpers: it ends, and no round is empty. -/
theorem helper_loop_eq (h : dag.Wellformed max_nodes) {β : Type} (step : β → String → Controller β) (pending : List String)
    (result : β) : helper_loop dag step pending result = (helper_order dag pending).foldlM step result :=
  work_eq sorted_perm h.acyclic_dependencies _ step le_rfl result

theorem affected_helpers_nodup (dag : Dag) (changed : List String) : (affected_helpers dag changed).Nodup :=
  (List.nodup_dedup _).filter _

/-- The helpers that are compiled are those that depend on a changed one, over any nodes. -/
theorem mem_affected_helpers (h : dag.Wellformed max_nodes) (changed : List String) (id : String) :
    id ∈ affected_helpers dag changed ↔ ∃ node ∈ dag.nodes, node.id = id ∧ node.original = false ∧
      ∃ start ∈ changed, Relation.ReflTransGen (fun a b => b ∈ dag.dependencies a) id start := by
  have haffected : id ∈ (changed.flatMap dag.affected).dedup ↔
      ∃ start ∈ changed, Relation.ReflTransGen (fun a b => b ∈ dag.dependencies a) id start := by
    simp only [List.mem_dedup, List.mem_flatMap, Dag.mem_affected_iff, Dag.depends_iff h.distinct]
  have hhelper : (dag.by_id id).any (!·.original) = true ↔ ∃ node ∈ dag.nodes, node.id = id ∧ node.original = false := by
    constructor
    · intro hany
      obtain ⟨node, hnode, horiginal⟩ := Option.any_eq_true _ _ |>.mp hany
      exact ⟨node, List.mem_of_find?_eq_some hnode, Dag.id_of_by_id hnode, by simpa using horiginal⟩
    · rintro ⟨node, hnode, rfl, horiginal⟩
      rw [Dag.by_id_of_mem h.distinct hnode]
      simpa using horiginal
  rw [affected_helpers, List.mem_filter, haffected, hhelper]
  constructor
  · rintro ⟨hstart, node, hnode, hid, horiginal⟩
    exact ⟨node, hnode, hid, horiginal, hstart⟩
  · rintro ⟨node, hnode, hid, horiginal, hstart⟩
    exact ⟨hstart, node, hnode, hid, horiginal⟩

end Order

end LeanFlow.Transactions
