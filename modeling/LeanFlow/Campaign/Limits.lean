import LeanFlow.General.Dict
import LeanFlow.Source.Mask
import Mathlib.Algebra.Order.Ring.Rat
import Mathlib.Data.Rat.Defs

/-! The ledger of a campaign: its limits, its active time and its invocations.

Every call holds the ledger's lock from its first line to its last, so the calls of
parallel threads follow one another in some order. A call that changes the ledger ends by
writing it to its file; a write may fail, and then the call raises with the ledger changed
in memory only. A controller that starts reads the file. -/
namespace LeanFlow.Campaign
open General Source

structure Limits where
  agent_calls : Option Nat := none
  tokens : Option Nat := none
  wall_time_s : Option ℚ := none
deriving DecidableEq

inductive Status where
  | reserved
  | running
  | finished
  | not_started
deriving DecidableEq

abbrev Usage := Dict Text Int

structure Invocation where
  status : Status
  usage : Option Usage
  interrupted : Bool := false
deriving DecidableEq

/-- `uuid.uuid4().hex` -/
abbrev Uuid := BitVec 128

/-- What the file holds. -/
structure Ledger where
  version : Nat
  limits : Limits
  elapsed_s : ℚ
  invocations : Dict Uuid Invocation
deriving DecidableEq

structure CampaignLimits where
  limits : Limits
  state : Ledger
  elapsed_before : ℚ
  started : ℚ

/-! ### Time -/

def elapsed (now : ℚ) (c : CampaignLimits) : ℚ := c.elapsed_before + now - c.started

def remaining (now : ℚ) (c : CampaignLimits) : Option ℚ :=
  c.limits.wall_time_s.map fun limit => max 0 (limit - elapsed now c)

def persist (now : ℚ) (c : CampaignLimits) : CampaignLimits :=
  { c with state := { c.state with elapsed_s := elapsed now c } }

/-! ### A controller starts -/

/-- A process that was reserved or running may have run: its charge stays, its usage is unknown. -/
def interrupt (call : Invocation) : Invocation :=
  if call.status ∈ [.reserved, .running] then ⟨.finished, none, true⟩ else call

def interrupt_all (invocations : Dict Uuid Invocation) : Dict Uuid Invocation where
  items := invocations.items.map fun item => (item.1, interrupt item.2)
  distinct := by
    rw [List.map_map]
    exact invocations.distinct

/-- `CampaignLimits.__init__`, up to its first checkpoint. -/
def init (file : Option Ledger) (limits : Limits) (started : ℚ) : Except String CampaignLimits :=
  let begin_ (state : Ledger) : CampaignLimits :=
    ⟨limits, { state with invocations := interrupt_all state.invocations }, state.elapsed_s, started⟩
  match file with
  | none => .ok (begin_ ⟨2, limits, 0, .empty⟩)
  | some state =>
    if state.version ≠ 2 ∨ state.limits ≠ limits then
      .error "Start a new campaign when changing limits or migrating old runs"
    else .ok (begin_ state)

/-! ### The calls -/

def calls (ledger : Ledger) : List Invocation := ledger.invocations.items.map Prod.snd

def charged (ledger : Ledger) : List Invocation := (calls ledger).filter (·.status ≠ .not_started)

def token_count (usage : Usage) : Int := (usage.get? "input_tokens".toList).getD 0 + (usage.get? "output_tokens".toList).getD 0

/-- The tokens that the charged calls have reported. -/
def used (ledger : Ledger) : Int := ((charged ledger).map fun call => token_count (call.usage.getD .empty)).sum

def reserve (invocation : Uuid) (checked now : ℚ) (c : CampaignLimits) : Except String CampaignLimits :=
  if (remaining checked c).any (· ≤ 0) then .error "Global campaign time limit reached"
  else if c.limits.agent_calls.any (· ≤ (charged c.state).length) then .error "Global agent-call limit reached"
  else if c.limits.tokens.isSome ∧ (charged c.state).any (fun call => call.status = .finished ∧ call.usage = none) then
    .error "Token usage is unavailable; cannot admit another capped call"
  else if c.limits.tokens.any (↑· ≤ used c.state) then .error "Global reported-token limit reached"
  else .ok (persist now
    { c with state := { c.state with invocations := c.state.invocations.set invocation ⟨.reserved, none, false⟩ } })

/-- A `KeyError` where the invocation is unknown. -/
def started_call (invocation : Uuid) (now : ℚ) (c : CampaignLimits) : Option CampaignLimits :=
  (c.state.invocations.get? invocation).map fun call => persist now
    { c with state := { c.state with invocations := c.state.invocations.set invocation { call with status := .running } } }

/-- A `KeyError` where the invocation is unknown, and nothing to write where it has ended. -/
def finish (invocation : Uuid) (usage : Option Usage) (started : Bool) (now : ℚ) (c : CampaignLimits) :
    Option (Option CampaignLimits) :=
  (c.state.invocations.get? invocation).map fun call =>
    if call.status ∈ [.finished, .not_started] then none
    else
      let ended := { call with status := if started then .finished else .not_started, usage := usage }
      some (persist now { c with state := { c.state with invocations := c.state.invocations.set invocation ended } })

end LeanFlow.Campaign
