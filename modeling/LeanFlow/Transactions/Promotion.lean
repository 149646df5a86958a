import LeanFlow.Transactions.Proof

/-! Promoting saved candidates.

A candidate whose dependencies are all proved is taken out of its node and given to
the acceptance, which holds the runtime lock. Worker threads persist the live graph
whenever that lock is free, also between taking the candidate out and locking. -/
namespace LeanFlow.Transactions
open General Goals Source

section Promotion

variable (C : CharClass) (sha256 : Text → String)

/-! ### Worker threads -/

/-- `_persist` by another thread, in one step: it holds both locks. -/
def World.persisted (shown : Node → NodeStatus) (w : World) : World :=
  let w := if w.stored = some w.documents then w
    else { w.checkpoint with
      disk := { w.checkpoint.disk with source_json := w.documents }, stored := some w.documents }
  w.commit.publish shown

/-- What other threads do: they publish progress, or persist for a job of their own. -/
inductive Worker where
  | publish (step : PublishStep)
  | persist (shown : Node → NodeStatus)

def Worker.apply (step : Worker) (w : World) : Option World :=
  match step with
  | .publish step => step.apply w
  | .persist shown =>
    if w.held || w.locked || w.publishing.isSome then none else some (w.persisted shown)

/-! ### One candidate -/

/-- What surrounds one acceptance: the verifier, the gates, and the calls that fail. -/
structure Environment where
  proof_imports : List String := []
  transaction_id : String
  verdict : Verdict
  installed : Option (Option Text) := none
  compiled : Option Text := none
  fails : Step → Bool
  store_fails : StorePart → Bool
  shown : Node → NodeStatus
  /-- The node has a recovery journal already. -/
  in_flight : Bool := false
  /-- The node may be tried again without a decision. -/
  restarts : Bool := false

def Environment.submission (env : Environment) (node : Node) (candidate : List Text) (job_id : String) :
    Submission where
  node := node
  candidate := candidate
  job_id := job_id
  proof_imports := env.proof_imports
  transaction_id := env.transaction_id
  verdict := env.verdict
  installed := env.installed
  compiled := env.compiled

/-- `with self.lock`. -/
def with_runtime_lock {α : Type} (x : Controller α) : Controller α := do
  Prog.modify fun w => { w with held := true }
  let a ← Prog.handle (fun e => do
    Prog.modify fun w => { w with held := false }
    .raise e) x
  Prog.modify fun w => { w with held := false }
  return a

def accept (env : Environment) (node : Node) (candidate : List Text) (job_id : String) : Controller Bool :=
  with_runtime_lock (accept_locked C sha256 env.fails env.shown (env.submission node candidate job_id))

/-- `any(index[dep].status != "proved" for dep in node.dependencies)`. -/
def has_open_dependency (dag : Dag) : List String → Except Raised Bool
  | [] => .ok false
  | dep :: dependencies =>
    match dag.by_id dep with
    | none => .error (.key_error dep)
    | some node => if node.status = .proved then has_open_dependency dag dependencies else .ok true

/-- Block the node and open its recovery journal in one persist. -/
def enqueue_recovery (env : Environment) (id : String) : Controller Unit :=
  if env.in_flight then return
  else do
    Prog.modify (World.updateNode id fun node => { node with status := .blocked })
    persist env.store_fails env.shown

/-- A recovery is opened for a node that has neither a proof nor a candidate. -/
def reopen (env : Environment) (id : String) : Controller Unit := do
  let w ← Prog.get
  match w.dag.by_id id with
  | none => return
  | some node =>
    if node.status = .proved ∨ node.status = .disproved ∨ node.candidate ≠ [] then return
    else enqueue_recovery env id

/-- What a turn of the promotion loop did. -/
inductive Turn where
  | skipped
  | promoted
  | returned
  | rejected
deriving DecidableEq

/-- The candidate goes back when the acceptance raises. -/
def put_back (candidate : List Text) (node : Node) : Node :=
  if node.status = .proved then node else { node with candidate := candidate, status := .candidate }

/-- A candidate that was refused. -/
def refuse (research : Bool) (env : Environment) (id : String) : Controller Turn :=
  if research then do
    Prog.modify (World.updateNode id fun node => { node with status := .blocked })
    enqueue_recovery env id
    return .rejected
  else do
    Prog.modify (World.updateNode id fun node => { node with
      status := if env.restarts then .retry else .blocked })
    return .returned

/-- Take the candidate of a node and have it accepted. -/
def take_candidate (research : Bool) (env : Environment) (node : Node) : Controller Turn := do
  Prog.modify (World.updateNode node.id fun node => { node with candidate := [] })
  let accepted ← Prog.handle (fun e => do
    Prog.modify (World.updateNode node.id (put_back node.candidate))
    .raise e) (accept C sha256 env node node.candidate "controller")
  if accepted then return .promoted else refuse research env node.id

def promote_node (research : Bool) (env : Environment) (id : String) : Controller Turn := do
  let w ← Prog.get
  match w.dag.by_id id with
  | none => return .skipped
  | some node =>
    if node.status ≠ .candidate then return .skipped
    else do
      let waiting ← Prog.ofExcept (has_open_dependency w.dag node.dependencies)
      if waiting then return .skipped else take_candidate C sha256 research env node

/-! ### The loop -/

/-- One pass over the nodes. -/
def promote_pass (research : Bool) (env : String → Environment) : List String → Controller (List (String × Turn))
  | [] => return []
  | id :: ids => do
    let turn ← promote_node C sha256 research (env id) id
    let turns ← promote_pass research env ids
    return (id, turn) :: turns

/-- Passes until one promotes nothing; each that does proves a node, so there are at most `bound`. -/
def promote_passes (research : Bool) (env : Nat → String → Environment) :
    Nat → Controller (List (String × Turn))
  | 0 => return []
  | bound + 1 => do
    let w ← Prog.get
    let turns ← promote_pass C sha256 research (env bound) (w.dag.nodes.map (·.id))
    if turns.any (·.2 = .promoted) then do
      let rest ← promote_passes research env bound
      return turns ++ rest
    else return turns

/-- `_promote_candidates`, up to the recoveries it owes. -/
def promote_candidates (research : Bool) (env : Nat → String → Environment) (last : Environment) :
    Controller (List String) := do
  let w ← Prog.get
  let turns ← promote_passes C sha256 research env (w.dag.nodes.length + 1)
  (if turns.any (·.2 ≠ .skipped) then persist last.store_fails last.shown else pure ())
  return (turns.filter (·.2 = .rejected)).map (·.1)

/-! ### Submissions -/

/-- `_candidate` passes on one replacement for each hole, or nothing. -/
def complete (node : Node) (candidate : List Text) : Bool :=
  candidate ≠ [] && candidate.length = node.holes.length

/-- A candidate is kept until its dependencies are proved. -/
def keep_candidate (id : String) (candidate : List Text) (waiting : List String) : Controller Unit := do
  Prog.modify (World.updateNode id fun node => { node with candidate := candidate })
  Prog.modify (World.updateNode id fun node => { node with conditional_dependencies := waiting })
  Prog.modify (World.updateNode id fun node => { node with status := .candidate })

/-- The candidate of a finished job, in `_handle_result`; the recovery of a refused one comes after. -/
def handle_candidate (env : Environment) (id : String) (candidate : List Text) (job_id : String) :
    Controller Unit := do
  let node ← find_node id
  if ¬ complete node candidate then return
  else do
    let w ← Prog.get
    let waiting ← Prog.ofExcept (conditional w.dag node.dependencies)
    if waiting ≠ [] then do
      keep_candidate id candidate waiting
      persist env.store_fails env.shown
    else do
      let _ ← accept C sha256 env node candidate job_id
      return

/-- `_retain_candidate`. -/
def retain_result (id : String) (candidate : List Text) : Controller Unit := do
  let node ← find_node id
  if node.status = .proved ∨ ¬ complete node candidate then return
  else do
    Prog.modify (World.updateNode id fun node => { node with candidate := candidate, status := .candidate })
    let w ← Prog.get
    let waiting ← Prog.ofExcept (conditional w.dag node.dependencies)
    Prog.modify (World.updateNode id fun node => { node with conditional_dependencies := waiting })

/-! ### A process -/

/-- The statuses of a resume: a saved candidate comes first, interrupted work is tried again. -/
def resumed_status (resumable : String → Bool) (restarts : Node → Bool) (node : Node) : Node :=
  if node.status = .proved then node
  else if node.candidate ≠ [] then { node with status := .candidate }
  else if node.status ∈ [.running, .submitted, .verifying, .integrating] ∨ resumable node.id then
    { node with status := if resumable node.id || restarts node then .retry else .blocked }
  else node

def World.resumeStatuses (resumable : String → Bool) (restarts : Node → Bool) (w : World) : World :=
  { w with dag := { w.dag with nodes := w.dag.nodes.map (resumed_status resumable restarts) } }

/-- What the controller does between two scheduling rounds. -/
inductive Operation where
  | promote (research : Bool) (env : Nat → String → Environment) (last : Environment)
  | submit (env : Environment) (id : String) (candidate : List Text) (job_id : String)
  | retain (id : String) (candidate : List Text)
  | enqueue (env : Environment) (id : String)

def Operation.run : Operation → Controller Unit
  | .promote research env last => do
    let _ ← promote_candidates C sha256 research env last
    return
  | .submit env id candidate job_id => handle_candidate C sha256 env id candidate job_id
  | .retain id candidate => retain_result id candidate
  | .enqueue env id => reopen env id

/-- A process works, and persists when it ends; an exception ends its work. -/
def work (operations : List Operation) (env : Environment) : Controller Unit := do
  Prog.handle (fun _ => return) (operations.forM (Operation.run C sha256))
  persist env.store_fails env.shown

/-- `_restore`: the files are loaded, a transaction is recovered and the statuses are set. -/
def restart (max_nodes : Nat) (resumable : String → Bool) (restarts : Node → Bool) (env : Environment) :
    Controller Unit := do
  restore C sha256 max_nodes env.shown
  Prog.modify (World.resumeStatuses resumable restarts)
  persist env.store_fails env.shown

end Promotion

end LeanFlow.Transactions
