import LeanFlow.General.Dict
import Mathlib.Algebra.Order.Ring.Rat
import Mathlib.Algebra.Ring.Nat
import Mathlib.Data.Finset.Basic

/-! The usage of a run, from its events.

Each conversation turn of an agent session ends in an event that may report its calls, its
tokens and its cost; a cost is the session's total so far or an estimate of the turn.
`_aggregate_usage` adds up what was reported and says which totals are complete. Amounts
are rationals here. -/
namespace LeanFlow.Usage
open General

abbrev Text := List Char

/-! ### Events -/

/-- The cost of a usage record, its numbers as `_parse_float` reads them. -/
structure Cost where
  provider_reported_total_usd : Option ℚ := none
  source : Text := []
  total_usd : Option ℚ := none
  estimated_turn_usd : Option ℚ := none

/-- A turn's tokens, as `_parse_count` reads them. -/
structure Tokens where
  prompt_tokens : Option Int := none
  completion_tokens : Option Int := none

/-- A usage record: what is no mapping is `none`. -/
structure Record where
  turn : Option Tokens := none
  cost : Option Cost := none

structure Details where
  agent_session_id : Text := []
  model : Text := []
  provider : Text := []
  reason : Text := []
  api_calls : Option Int := none
  usage : Option Record := none

structure Event where
  type : Text
  agent_id : Text := []
  event_id : Option Text := none
  details : Option Details := none

def conversation_end : Text := "conversation-end".toList
def api_request : Text := "api-request".toList
def api_call : Text := "api-call".toList
def api_usage_unmetered : Text := "api-usage-unmetered".toList
def dispatch_job : Text := "dispatch-job".toList
def command_expert_provider_attempt : Text := "command-expert-provider-attempt".toList

def count (type : Text) (events : List Event) : Nat := (events.filter fun event => event.type = type).length

/-- The requests to count, and both raw counts. -/
def api_request_evidence (events : List Event) : Nat × Nat × Nat :=
  (if count api_request events ≠ 0 then count api_request events else count api_call events,
    count api_request events, count api_call events)

/-! ### Collection -/

inductive Source where
  | provider_reported
  | estimated
deriving DecidableEq

inductive Entry where
  | missing
  | provider_reported (total : ℚ)
  | estimated (turn : ℚ)
deriving DecidableEq

/-- The session's total that a cost reports. -/
def Cost.reported (cost : Cost) : Option ℚ :=
  match cost.provider_reported_total_usd with
  | some total => some total
  | none => if cost.source = "provider_reported".toList then cost.total_usd else none

def Cost.entry (cost : Cost) : Entry :=
  match cost.reported, cost.estimated_turn_usd with
  | some total, _ => .provider_reported total
  | none, some turn => .estimated turn
  | none, none => .missing

/-- The evidence of a conversation end: its calls, its tokens and its cost. One without a
turn record has neither tokens nor a cost. -/
def evidence : Option Details → Option Int × Option (Int × Int) × Entry
  | none => (none, none, .missing)
  | some details =>
    match details.usage.bind fun usage => usage.turn.map (·, usage.cost) with
    | none => (details.api_calls, none, .missing)
    | some (turn, cost) =>
      let tokens := match turn.prompt_tokens, turn.completion_tokens with
        | some prompt, some completion => some (prompt, completion)
        | _, _ => none
      (details.api_calls, tokens, cost.elim .missing Cost.entry)

structure Collected where
  groups : Dict Text (List Entry) := .empty
  api_calls : Int := 0
  input_tokens : Int := 0
  output_tokens : Int := 0
  usage_events : Nat := 0
  api_calls_complete : Bool := true
  tokens_complete : Bool := true
  models : Finset Text := ∅
  providers : Finset Text := ∅

/-- The session of a conversation end: its own where it names none. -/
def agent_key (event : Event) (usage_events : Nat) : Text :=
  let agent_session_id := event.details.elim [] (·.agent_session_id)
  if agent_session_id ≠ [] then agent_session_id
  else if event.agent_id ≠ [] then event.agent_id
  else "event-".toList ++ event.event_id.getD (toString usage_events).toList

def named (name : Text) : Finset Text := if name = [] then ∅ else {name}

def collect (totals : Collected) (event : Event) : Collected :=
  if event.type ≠ conversation_end then totals
  else
    let (calls, tokens, entry) := evidence event.details
    let agent_id := agent_key event (totals.usage_events + 1)
    { groups := totals.groups.set agent_id ((totals.groups.get? agent_id).getD [] ++ [entry])
      api_calls := totals.api_calls + calls.getD 0
      input_tokens := totals.input_tokens + (tokens.map Prod.fst).getD 0
      output_tokens := totals.output_tokens + (tokens.map Prod.snd).getD 0
      usage_events := totals.usage_events + 1
      api_calls_complete := totals.api_calls_complete && calls.isSome
      tokens_complete := totals.tokens_complete && tokens.isSome
      models := totals.models ∪ event.details.elim ∅ fun details => named details.model
      providers := totals.providers ∪ event.details.elim ∅ fun details => named details.provider }

/-! ### Combination -/

def cumulative_cost_epsilon : ℚ := 1 / 10 ^ 9

/-- One session's cost entries, as far as they were read. -/
structure Group where
  total : ℚ := 0
  complete : Bool := true
  sources : Finset Source := ∅
  reported_high_water : Option ℚ := none
  reported_regressed : Bool := false

def Group.read (group : Group) : Entry → Group
  | .provider_reported reported =>
    { total := reported
      complete := true
      sources := {.provider_reported}
      reported_high_water := some (group.reported_high_water.elim reported (max · reported))
      reported_regressed := group.reported_regressed ||
        group.reported_high_water.any fun high_water => reported < high_water - cumulative_cost_epsilon }
  | .estimated turn => { group with total := group.total + turn, sources := group.sources ∪ {.estimated} }
  | .missing => { group with complete := false }

def combine_group (entries : List Entry) : Group := entries.foldl Group.read {}

def Group.counts (group : Group) : Bool := group.complete && group.sources ≠ ∅ && !group.reported_regressed

structure Costs where
  total : ℚ := 0
  sources : Finset Source := ∅
  complete : Bool := true

def Costs.add (costs : Costs) (entries : List Entry) : Costs :=
  if (combine_group entries).counts then
    { costs with total := costs.total + (combine_group entries).total, sources := costs.sources ∪ (combine_group entries).sources }
  else { costs with complete := false }

/-! ### `_aggregate_usage` -/

/-- What `_usage_from_log` finds in the run's log. -/
structure LogUsage where
  api_calls : Option Int
  input_tokens : Option Int
  output_tokens : Option Int
  cost_usd : Option ℚ
  cost_source : Text

structure Aggregate where
  api_calls : Option Int
  input_tokens : Option Int
  output_tokens : Option Int
  cost_usd : Option ℚ
  cost_source : Text
  api_calls_complete : Bool
  tokens_complete : Bool
  cost_complete : Bool
  complete : Bool
  source : Text
  aggregation_scope : Text
  conversation_end_events : Nat
  recorded_api_requests : Nat
  recorded_api_request_events : Nat
  recorded_api_call_events : Nat
  unmetered_api_attempts : Nat
  unmetered_reason_counts : Text → Nat
  command_expert_attempts : Nat
  descendant_dispatch_events : Nat
  descendant_usage_complete : Bool
  api_request_coverage_complete : Bool
  agent_sessions : Nat
  models : Finset Text
  providers : Finset Text

def unmetered_reason (event : Event) : Text :=
  let reason := event.details.elim [] (·.reason)
  if reason = [] then "unspecified".toList else reason

def unmetered_reason_counts (events : List Event) (reason : Text) : Nat :=
  (events.filter fun event => event.type = api_usage_unmetered ∧ unmetered_reason event = reason).length

def cost_source (sources : Finset Source) : Text :=
  if .provider_reported ∈ sources ∧ .estimated ∈ sources then "mixed".toList
  else if .provider_reported ∈ sources then "provider_reported".toList
  else if .estimated ∈ sources then "estimated".toList
  else "unavailable".toList

/-- The fields that no conversation end has a part in. -/
def base (events : List Event) : Aggregate where
  api_calls := none
  input_tokens := none
  output_tokens := none
  cost_usd := none
  cost_source := []
  api_calls_complete := false
  tokens_complete := false
  cost_complete := false
  complete := false
  source := []
  aggregation_scope := []
  conversation_end_events := 0
  recorded_api_requests := (api_request_evidence events).1
  recorded_api_request_events := (api_request_evidence events).2.1
  recorded_api_call_events := (api_request_evidence events).2.2
  unmetered_api_attempts := count api_usage_unmetered events
  unmetered_reason_counts := unmetered_reason_counts events
  command_expert_attempts := unmetered_reason_counts events command_expert_provider_attempt
  descendant_dispatch_events := count dispatch_job events
  descendant_usage_complete := count dispatch_job events = 0
  api_request_coverage_complete := false
  agent_sessions := 0
  models := ∅
  providers := ∅

def from_log (events : List Event) (log : LogUsage) : Aggregate :=
  { base events with
    api_calls := log.api_calls
    input_tokens := log.input_tokens
    output_tokens := log.output_tokens
    cost_usd := log.cost_usd
    cost_source := log.cost_source
    source := if log.api_calls.isSome || log.input_tokens.isSome || log.output_tokens.isSome || log.cost_usd.isSome then "run-log".toList
      else "unavailable".toList
    aggregation_scope := "last-run-log-summary-only".toList }

def covered (events : List Event) (totals : Collected) : Bool :=
  count api_usage_unmetered events = 0 && (base events).descendant_usage_complete &&
    totals.api_calls = ((base events).recorded_api_requests : Int)

def from_events (events : List Event) (totals : Collected) : Aggregate :=
  let costs := (totals.groups.items.map Prod.snd).foldl Costs.add {}
  let covered := covered events totals
  let api_calls_complete := totals.api_calls_complete && covered
  let tokens_complete := totals.tokens_complete && covered
  let cost_complete := costs.complete && covered
  { base events with
    api_calls := if api_calls_complete then some totals.api_calls else none
    input_tokens := if tokens_complete then some totals.input_tokens else none
    output_tokens := if tokens_complete then some totals.output_tokens else none
    cost_usd := if cost_complete then some costs.total else none
    cost_source := cost_source costs.sources
    api_calls_complete := api_calls_complete
    tokens_complete := tokens_complete
    cost_complete := cost_complete
    complete := api_calls_complete && tokens_complete && cost_complete
    source := "conversation-end-events".toList
    aggregation_scope := "all-recorded-conversation-end-events".toList
    conversation_end_events := totals.usage_events
    api_request_coverage_complete := covered
    agent_sessions := totals.groups.items.length
    models := totals.models
    providers := totals.providers }

def aggregate_usage (events : List Event) (log : LogUsage) : Aggregate :=
  let totals := events.foldl collect {}
  if totals.usage_events = 0 then from_log events log else from_events events totals

end LeanFlow.Usage
