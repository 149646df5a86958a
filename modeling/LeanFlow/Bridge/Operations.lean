import LeanFlow.General.Dict
import LeanFlow.General.Runs

/-! The operations of a job's bridge, their workers and their receipts.

An admitted operation is worked on by a thread of its own: it announces itself, acts,
publishes what came of that under the bridge's lock, saves the operation as a receipt and
reports it. Between two of these steps anything may happen: other operations, polls and
cancellations, a close, or the end of the controller, after which only the receipts are
left. -/
namespace LeanFlow.Bridge
open General

/-- `uuid.uuid4().hex` -/
abbrev OperationId := BitVec 128

inductive Status where
  | running
  | completed
  | failed
  | interrupted
deriving DecidableEq

/-- What the bridge asks of a result: is it an object, does it say that it is accepted,
can it be written as JSON? -/
structure Results (ρ : Type) where
  is_object : ρ → Bool
  accepted : ρ → Bool
  serializable : ρ → Bool

structure Operation (ρ : Type) where
  tool : String
  status : Status := .running
  cancel_requested : Bool := false
  result : Option ρ := none
  error : Option String := none

/-- What a call may raise; only an `Exception` is caught. -/
inductive Raised where
  | exception (message : String)
  | base

/-- Where a worker is. -/
inductive Phase (ρ : Type) where
  | ready
  | acting
  | returned (result : ρ)
  | raised (message : String)
  | saving
  | reporting
  | ended

structure Worker (ρ : Type) where
  response : String
  phase : Phase ρ

/-- An operation in memory, with its stop event and its thread. -/
structure Job (ρ : Type) where
  operation : Operation ρ
  stop : Bool := false
  worker : Option (Worker ρ) := none

structure Bridge (ρ : Type) where
  closed : Bool := false
  jobs : Dict OperationId (Job ρ)
  submitted_response : String := ""
  /-- A call of `close` is waiting for the workers. -/
  draining : Bool := false
  /-- How many calls of `close` have returned. -/
  returned : Nat := 0

/-- The bridge of the running controller, and the receipts on disk. -/
structure World (ρ : Type) where
  bridge : Option (Bridge ρ)
  receipts : Dict OperationId (Operation ρ)

/-- One step of a worker. -/
inductive Move (ρ : Type) where
  | announce (raised : Option Raised)
  | act (outcome : Except Raised ρ)
  | publish
  | save (saved : Bool)
  | report

inductive Event (ρ : Type) where
  | admission (id : OperationId) (tool response : String) (saved started : Bool)
  | work (id : OperationId) (move : Move ρ)
  | cancel (id : OperationId) (saved : Bool)
  | close
  | drained
  | crash
  | restart (fails : OperationId → Bool)

variable {ρ : Type} (results : Results ρ)

def submits (tool : String) : Bool := tool = "submit_candidate" || tool = "submit_report"

/-! ### Workers -/

/-- An exception is caught; anything else goes straight to the save. -/
def Raised.phase : Raised → Phase ρ
  | .exception message => .raised message
  | .base => .saving

def Operation.serializable (operation : Operation ρ) : Bool := operation.result.all results.serializable

def Worker.at (worker : Worker ρ) (phase : Phase ρ) : Worker ρ := { worker with phase := phase }

/-- Publishing a result. `result.get` of a submission that is no object raises. -/
def publish_result (result : ρ) (operation : Operation ρ) (worker : Worker ρ) : Operation ρ × Worker ρ :=
  ({ operation with status := .completed, result := some result },
    worker.at (if submits operation.tool && !results.is_object result then
      .raised "object has no attribute 'get'" else .saving))

/-- What a step of the worker does to its job. -/
def advance (move : Move ρ) (job : Job ρ) (worker : Worker ρ) : Option (Operation ρ × Worker ρ) :=
  match move, worker.phase with
  | .announce none, .ready => some (job.operation, worker.at .acting)
  | .announce (some raised), .ready => some (job.operation, worker.at raised.phase)
  | .act (.ok result), .acting => some (job.operation, worker.at (.returned result))
  | .act (.error raised), .acting => some (job.operation, worker.at raised.phase)
  | .publish, .returned result => some (publish_result results result job.operation worker)
  | .publish, .raised message =>
    some ({ job.operation with status := .failed, error := some message }, worker.at .saving)
  | .save saved, .saving =>
    some (job.operation, worker.at (if saved && job.operation.serializable results then .reporting else .ended))
  | .report, .reporting => some (job.operation, worker.at .ended)
  | _, _ => none

/-- The response that a step submits: that of an accepted result. -/
def submission (move : Move ρ) (job : Job ρ) (worker : Worker ρ) : Option String :=
  match move, worker.phase with
  | .publish, .returned result =>
    if submits job.operation.tool && results.is_object result && results.accepted result then some worker.response else none
  | _, _ => none

/-- A save writes the receipt, where nothing prevents it. -/
def receipt (move : Move ρ) (job : Job ρ) : Option (Operation ρ) :=
  match move with
  | .save saved => if saved && job.operation.serializable results then some job.operation else none
  | _ => none

def work (id : OperationId) (move : Move ρ) (b : Bridge ρ) (receipts : Dict OperationId (Operation ρ)) : Option (World ρ) := do
  let job ← b.jobs.get? id
  let worker ← job.worker
  let (operation, after) ← advance results move job worker
  some {
    bridge := some { b with
      jobs := b.jobs.set id { job with operation := operation, worker := some after }
      submitted_response := (submission results move job worker).getD b.submitted_response }
    receipts := ((receipt results move job).map (receipts.set id)).getD receipts }

/-! ### Calls -/

/-- The admission in `call`: an operation is listed before it is saved, and saved before its
thread starts. -/
def admission (id : OperationId) (tool response : String) (saved started : Bool) (b : Bridge ρ)
    (receipts : Dict OperationId (Operation ρ)) : World ρ :=
  if b.closed then ⟨some b, receipts⟩
  else
    let operation : Operation ρ := { tool := tool }
    let worker : Option (Worker ρ) := if saved && started then some ⟨response, .ready⟩ else none
    ⟨some { b with jobs := b.jobs.set id { operation := operation, worker := worker } },
      if saved then receipts.set id operation else receipts⟩

def cancel (id : OperationId) (saved : Bool) (b : Bridge ρ) (receipts : Dict OperationId (Operation ρ)) : World ρ :=
  match b.jobs.get? id with
  | none => ⟨some b, receipts⟩
  | some job =>
    if job.operation.status = .running then
      let operation := { job.operation with cancel_requested := true }
      ⟨some { b with jobs := b.jobs.set id { job with operation := operation, stop := true } },
        if saved then receipts.set id operation else receipts⟩
    else ⟨some b, receipts⟩

/-- The first part of `close`. A second call returns where the bridge is closed. -/
def close (b : Bridge ρ) : Bridge ρ :=
  if b.closed then { b with returned := b.returned + 1 }
  else { b with closed := true, draining := true, jobs := b.jobs.mapValues fun _ job => { job with stop := true } }

def Phase.is_ended : Phase ρ → Bool
  | .ended => true
  | _ => false

/-- No thread is alive. -/
def drained (b : Bridge ρ) : Bool := b.jobs.items.all fun item => item.2.worker.all (·.phase.is_ended)

def interrupt (operation : Operation ρ) : Operation ρ :=
  if operation.status = .running then
    { operation with
      status := .interrupted
      error := some "The owning controller restarted before the operation completed." }
  else operation

/-- The constructor reads the receipts, in any order, and rewrites those that were running.
A write that fails ends it. -/
def restart (fails : OperationId → Bool) (receipts : Dict OperationId (Operation ρ)) : World ρ :=
  let rewritten := receipts.mapValues fun id operation => if fails id then operation else interrupt operation
  if receipts.items.any fun item => item.2.status = .running && fails item.1 then ⟨none, rewritten⟩
  else ⟨some { jobs := rewritten.mapValues fun _ operation => { operation := operation } }, rewritten⟩

/-- One event. No identifier is drawn twice. -/
def step (w : World ρ) (event : Event ρ) : Option (World ρ) :=
  match event, w.bridge with
  | .restart fails, none => some (restart fails w.receipts)
  | .crash, some _ => some { w with bridge := none }
  | .admission id tool response saved started, some b =>
    if (b.jobs.get? id).isSome || (w.receipts.get? id).isSome then none
    else some (admission id tool response saved started b w.receipts)
  | .work id move, some b => work results id move b w.receipts
  | .cancel id saved, some b => some (cancel id saved b w.receipts)
  | .close, some b => some { w with bridge := some (close b) }
  | .drained, some b =>
    if b.draining && drained b then some { w with bridge := some { b with draining := false, returned := b.returned + 1 } }
    else none
  | _, _ => none

def run (w : World ρ) (events : List (Event ρ)) : Option (World ρ) := events.foldlM (step results) w

def World.initial : World ρ := ⟨none, .empty⟩

/-- The condition: results are JSON and those of submissions are objects, workers are not
torn off, their saves and starts succeed, and no one closes while a close is waiting. -/
def Proper (w : World ρ) (event : Event ρ) : Prop :=
  ∀ b, w.bridge = some b →
    match event with
    | .admission _ _ _ saved started => b.closed = true ∨ (saved = true ∧ started = true)
    | .work _ (.announce (some .base)) | .work _ (.act (.error .base)) => False
    | .work id (.act (.ok result)) => results.serializable result = true ∧
        ∀ job, b.jobs.get? id = some job → submits job.operation.tool = true → results.is_object result = true
    | .work _ (.save saved) => saved = true
    | .close => b.draining = false
    | _ => True

end LeanFlow.Bridge
