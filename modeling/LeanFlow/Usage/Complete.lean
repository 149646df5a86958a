import LeanFlow.Usage.Sessions

/-! A total that is called complete.

A history is the turns of any number of sessions, in the order they ended, with the other
events of the run between them. -/
namespace LeanFlow.Usage
open General

/-- A turn, what it really used, and the event that ends it. -/
structure Turn where
  session : Text
  calls : Int
  prompt : Int
  completion : Int
  cost : ℚ
  event : Event

/-- What the event says of its turn is true: each number is the turn's or left out. The
session had spent `past` before. -/
structure Turn.Truthful (turn : Turn) (past : ℚ) : Prop where
  calls : ∀ details ∈ turn.event.details, ∀ n ∈ details.api_calls, n = turn.calls
  prompt : ∀ details ∈ turn.event.details, ∀ usage ∈ details.usage, ∀ tokens ∈ usage.turn,
    ∀ n ∈ tokens.prompt_tokens, n = turn.prompt
  completion : ∀ details ∈ turn.event.details, ∀ usage ∈ details.usage, ∀ tokens ∈ usage.turn,
    ∀ n ∈ tokens.completion_tokens, n = turn.completion
  total : ∀ details ∈ turn.event.details, ∀ usage ∈ details.usage, ∀ cost ∈ usage.cost,
    ∀ total ∈ cost.reported, total = past + turn.cost
  estimate : ∀ details ∈ turn.event.details, ∀ usage ∈ details.usage, ∀ cost ∈ usage.cost,
    ∀ estimate ∈ cost.estimated_turn_usd, estimate = turn.cost

inductive Step where
  | conversation (turn : Turn)
  | other (event : Event)

def Step.event : Step → Event
  | .conversation turn => turn.event
  | .other event => event

def Step.turn? : Step → Option Turn
  | .conversation turn => some turn
  | .other _ => none

def turns (history : List Step) : List Turn := history.filterMap Step.turn?

def spent (k : Text) (turns : List Turn) : ℚ := ((turns.filter fun turn => turn.session = k).map Turn.cost).sum

/-- Only turns end in a conversation end, which names the turn's session. -/
def Ended : Step → Prop
  | .conversation turn => turn.event.type = conversation_end ∧ session turn.event = turn.session ∧ turn.session ≠ []
  | .other event => event.type ≠ conversation_end

structure Faithful (history : List Step) : Prop where
  ended : ∀ step ∈ history, Ended step
  truthful : ∀ before turn after, turns history = before ++ turn :: after → turn.Truthful (spent turn.session before)

/-! ### The events of the turns -/

theorem ends_history {history : List Step} (h : ∀ step ∈ history, Ended step) :
    ends (history.map Step.event) = (turns history).map Turn.event := by
  induction history with
  | nil => rfl
  | cons step history ih =>
    have hstep := h step List.mem_cons_self
    have hrest := ih fun other hother => h other (List.mem_cons_of_mem step hother)
    rw [List.map_cons, ends_cons, hrest]
    cases step with
    | conversation turn =>
      rw [if_pos (show (Step.conversation turn).event.type = conversation_end from hstep.1)]
      rfl
    | other event =>
      rw [if_neg (show (Step.other event).event.type ≠ conversation_end from hstep)]
      rfl

theorem turn_ended {history : List Step} (h : ∀ step ∈ history, Ended step) {turn : Turn} (hturn : turn ∈ turns history) :
    session turn.event = turn.session ∧ turn.session ≠ [] := by
  obtain ⟨step, hstep, hsome⟩ := List.mem_filterMap.mp hturn
  cases step with
  | other event => cases hsome
  | conversation turn' =>
    cases hsome
    exact (h _ hstep).2

theorem history_named {history : List Step} (h : ∀ step ∈ history, Ended step) : Named (history.map Step.event) := by
  intro event hevent
  rw [ends_history h] at hevent
  obtain ⟨turn, hturn, rfl⟩ := List.mem_map.mp hevent
  rw [(turn_ended h hturn).1]
  exact (turn_ended h hturn).2

theorem entries_history {history : List Step} (h : ∀ step ∈ history, Ended step) (k : Text) :
    entries k (history.map Step.event) = ((turns history).filter fun turn => turn.session = k).map fun turn => entry turn.event := by
  rw [entries, ends_history h, List.filter_map, List.map_map]
  refine congrArg _ (List.filter_congr fun turn hturn => ?_)
  rw [Function.comp_apply, (turn_ended h hturn).1]

/-! ### True events -/

theorem truthful_calls {turn : Turn} {past : ℚ} (h : turn.Truthful past) {n : Int} (hn : calls turn.event = some n) : n = turn.calls := by
  unfold calls evidence at hn
  cases hdetails : turn.event.details with
  | none => rw [hdetails] at hn; cases hn
  | some details =>
    rw [hdetails] at hn
    refine h.calls details hdetails n ?_
    simp only at hn
    split at hn <;> exact hn

/-- A token count or a cost is read where there is a usage record with a turn. -/
theorem evidence_turn (event : Event) (h : (evidence event.details).2 ≠ (none, .missing)) :
    ∃ details ∈ event.details, ∃ usage ∈ details.usage, ∃ tokens ∈ usage.turn,
      (∀ pair ∈ (evidence event.details).2.1, pair.1 ∈ tokens.prompt_tokens ∧ pair.2 ∈ tokens.completion_tokens) ∧
        (evidence event.details).2.2 = usage.cost.elim .missing Cost.entry := by
  cases hdetails : event.details with
  | none =>
    rw [hdetails] at h
    exact absurd rfl h
  | some details =>
    rw [hdetails] at h
    cases husage : details.usage with
    | none =>
      rw [evidence, husage] at h
      exact absurd rfl h
    | some usage =>
      cases htokens : usage.turn with
      | none =>
        rw [evidence, husage, Option.bind_some, htokens] at h
        exact absurd rfl h
      | some tokens =>
        refine ⟨details, rfl, usage, husage, tokens, htokens, ?_, ?_⟩
        · intro pair hpair
          rw [evidence, husage, Option.bind_some, htokens] at hpair
          simp only [Option.map_some] at hpair
          split at hpair
          · rename_i prompt completion hprompt hcompletion
            cases Option.some.inj hpair
            exact ⟨hprompt, hcompletion⟩
          · cases hpair
        · rw [evidence, husage, Option.bind_some, htokens]
          rfl

theorem truthful_tokens {turn : Turn} {past : ℚ} (h : turn.Truthful past) {pair : Int × Int}
    (hpair : (evidence turn.event.details).2.1 = some pair) : pair = (turn.prompt, turn.completion) := by
  obtain ⟨details, hdetails, usage, husage, tokens, htokens, hread, -⟩ :=
    evidence_turn turn.event fun heq => by rw [heq] at hpair; cases hpair
  obtain ⟨hprompt, hcompletion⟩ := hread pair hpair
  exact Prod.ext (h.prompt details hdetails usage husage tokens htokens _ hprompt)
    (h.completion details hdetails usage husage tokens htokens _ hcompletion)

theorem truthful_entry {turn : Turn} {past : ℚ} (h : turn.Truthful past) :
    match entry turn.event with
    | .missing => True
    | .provider_reported total => total = past + turn.cost
    | .estimated estimate => estimate = turn.cost := by
  by_cases hmissing : entry turn.event = .missing
  · rw [hmissing]
    trivial
  obtain ⟨details, hdetails, usage, husage, tokens, -, -, hentry⟩ :=
    evidence_turn turn.event fun heq => hmissing (by rw [entry, heq])
  rw [entry, hentry]
  cases hcost : usage.cost with
  | none => trivial
  | some cost =>
    have htotal := h.total details hdetails usage husage cost hcost
    have hestimate := h.estimate details hdetails usage husage cost hcost
    simp only [Option.elim_some, Cost.entry]
    cases hreported : cost.reported with
    | some total => exact htotal total hreported
    | none =>
      cases hestimated : cost.estimated_turn_usd with
      | some estimate => exact hestimate estimate hestimated
      | none => trivial

/-! ### Sums -/

theorem spent_cons (k : Text) (turn : Turn) (turns : List Turn) :
    spent k (turn :: turns) = (if turn.session = k then turn.cost else 0) + spent k turns := by
  rw [spent, List.filter_cons]
  by_cases hk : turn.session = k
  · rw [if_pos (decide_eq_true hk), if_pos hk, List.map_cons, List.sum_cons, spent]
  · rw [if_neg (by simpa using hk), if_neg hk, zero_add, spent]

theorem spent_append (k : Text) (a b : List Turn) : spent k (a ++ b) = spent k a + spent k b := by
  rw [spent, List.filter_append, List.map_append, List.sum_append, spent, spent]

/-- One of several different keys. -/
theorem sum_single {keys : List Text} (hkeys : keys.Nodup) {k : Text} (hk : k ∈ keys) (cost : ℚ) :
    (keys.map fun key => if k = key then cost else 0).sum = cost := by
  induction keys with
  | nil => cases hk
  | cons key keys ih =>
    obtain ⟨hnot, hrest⟩ := List.nodup_cons.mp hkeys
    rw [List.map_cons, List.sum_cons]
    by_cases heq : k = key
    · have hzero : (keys.map fun key => if k = key then cost else 0) = keys.map fun _ => 0 :=
        List.map_congr_left fun other hother => if_neg fun hsame => hnot (by rwa [← heq, hsame])
      rw [if_pos heq, hzero, List.sum_map_zero, add_zero]
    · rw [if_neg heq, zero_add, ih hrest ((List.mem_cons.mp hk).resolve_left heq)]

/-- What the sessions have spent is what all turns cost. -/
theorem sum_spent {keys : List Text} (hkeys : keys.Nodup) {turns : List Turn} (h : ∀ turn ∈ turns, turn.session ∈ keys) :
    (keys.map fun k => spent k turns).sum = (turns.map Turn.cost).sum := by
  induction turns with
  | nil =>
    show (keys.map fun _ => (0 : ℚ)).sum = 0
    exact List.sum_map_zero
  | cons turn turns ih =>
    simp only [spent_cons]
    rw [List.sum_map_add, sum_single hkeys (h turn List.mem_cons_self), ih fun other hother => h other (List.mem_cons_of_mem turn hother),
      List.map_cons, List.sum_cons]

/-- A session tells its total throughout, where every turn is true. -/
theorem told_history (k : Text) (before : List Turn) {after : List Turn}
    (h : ∀ l turn r, before ++ after = l ++ turn :: r → turn.Truthful (spent turn.session l)) :
    Told (spent k before) ((after.filter fun turn => turn.session = k).map fun turn => (entry turn.event, turn.cost)) := by
  induction after generalizing before with
  | nil => trivial
  | cons turn after ih =>
    have hrest := ih (before ++ [turn]) fun l other r heq => h l other r (by rw [← heq, List.append_assoc, List.singleton_append])
    rw [spent_append, spent_cons, show spent k [] = 0 from rfl, add_zero] at hrest
    rw [List.filter_cons]
    by_cases hk : turn.session = k
    · rw [if_pos (decide_eq_true hk), List.map_cons]
      rw [if_pos hk] at hrest
      have hentry := truthful_entry (h before turn after rfl)
      rw [hk] at hentry
      exact ⟨hentry, hrest⟩
    · rw [if_neg (by simpa using hk)]
      rwa [if_neg hk, add_zero] at hrest

/-- A session whose cost counts has its total. -/
theorem combine_total {history : List Step} (h : Faithful history) {k : Text}
    (hcounts : (combine_group (entries k (history.map Step.event))).counts = true) :
    (combine_group (entries k (history.map Step.event))).total = spent k (turns history) := by
  have htold : Told 0 (((turns history).filter fun turn => turn.session = k).map fun turn => (entry turn.event, turn.cost)) :=
    told_history k [] h.truthful
  have hentries : entries k (history.map Step.event) =
      (((turns history).filter fun turn => turn.session = k).map fun turn => (entry turn.event, turn.cost)).map Prod.fst := by
    rw [entries_history h.ended, List.map_map]
    rfl
  have htotal := told_total htold {} fun _ => rfl
  rw [← hentries, List.map_map, zero_add] at htotal
  rw [Group.counts, Bool.and_eq_true, Bool.and_eq_true] at hcounts
  exact htotal hcounts.1.1

/-! ### The totals of a history -/

section totals

variable {history : List Step} (h : Faithful history)
include h

theorem calls_history (hcomplete : ((history.map Step.event).foldl collect {}).api_calls_complete = true) :
    ((history.map Step.event).foldl collect {}).api_calls = ((turns history).map Turn.calls).sum := by
  rw [foldl_flag Collected.api_calls_complete (fun event => (calls event).isSome)
    fun totals event hend => by rw [collect_end hend], ends_history h.ended] at hcomplete
  rw [foldl_number Collected.api_calls (fun event => (calls event).getD 0)
    fun totals event hend => by rw [collect_end hend], ends_history h.ended, List.map_map, zero_add]
  refine congrArg List.sum (List.map_congr_left fun turn hturn => ?_)
  have hsome : (calls turn.event).isSome = true := List.all_eq_true.mp hcomplete _ (List.mem_map_of_mem hturn)
  obtain ⟨n, hn⟩ := Option.isSome_iff_exists.mp hsome
  obtain ⟨before, after, hsplit⟩ := List.append_of_mem hturn
  rw [Function.comp_apply, hn, Option.getD_some, truthful_calls (h.truthful before turn after hsplit) hn]

theorem tokens_history (hcomplete : ((history.map Step.event).foldl collect {}).tokens_complete = true) :
    ((history.map Step.event).foldl collect {}).input_tokens = ((turns history).map Turn.prompt).sum ∧
      ((history.map Step.event).foldl collect {}).output_tokens = ((turns history).map Turn.completion).sum := by
  rw [foldl_flag Collected.tokens_complete (fun event => (evidence event.details).2.1.isSome)
    fun totals event hend => by rw [collect_end hend], ends_history h.ended] at hcomplete
  have hpair : ∀ turn ∈ turns history, (evidence turn.event.details).2.1 = some (turn.prompt, turn.completion) := by
    intro turn hturn
    have hsome : (evidence turn.event.details).2.1.isSome = true := List.all_eq_true.mp hcomplete _ (List.mem_map_of_mem hturn)
    obtain ⟨pair, hread⟩ := Option.isSome_iff_exists.mp hsome
    obtain ⟨before, after, hsplit⟩ := List.append_of_mem hturn
    rw [hread, truthful_tokens (h.truthful before turn after hsplit) hread]
  constructor
  · rw [foldl_number Collected.input_tokens (fun event => (prompt event).getD 0)
      fun totals event hend => by rw [collect_end hend], ends_history h.ended, List.map_map, zero_add]
    refine congrArg List.sum (List.map_congr_left fun turn hturn => ?_)
    rw [Function.comp_apply, prompt, hpair turn hturn]
    rfl
  · rw [foldl_number Collected.output_tokens (fun event => (completion event).getD 0)
      fun totals event hend => by rw [collect_end hend], ends_history h.ended, List.map_map, zero_add]
    refine congrArg List.sum (List.map_congr_left fun turn hturn => ?_)
    rw [Function.comp_apply, completion, hpair turn hturn]
    rfl

theorem cost_history (hcomplete : (((((history.map Step.event).foldl collect {}).groups.items.map Prod.snd).foldl Costs.add {}).complete) = true) :
    ((((history.map Step.event).foldl collect {}).groups.items.map Prod.snd).foldl Costs.add {}).total = ((turns history).map Turn.cost).sum := by
  have hnamed := history_named h.ended
  obtain ⟨hall, htotal⟩ := costs_foldl (((history.map Step.event).foldl collect {}).groups.items.map Prod.snd) {}
  rw [hall, Bool.true_and] at hcomplete
  rw [htotal hcomplete, zero_add, List.map_map]
  have hgroup : ∀ group ∈ ((history.map Step.event).foldl collect {}).groups.items,
      (combine_group group.2).total = spent group.1 (turns history) := by
    intro group hmem
    have hcounts : (combine_group group.2).counts = true := List.all_eq_true.mp hcomplete _ (List.mem_map_of_mem hmem)
    rw [← ((mem_groups hnamed group).mp hmem).2] at hcounts ⊢
    exact combine_total h hcounts
  rw [← sum_spent ((history.map Step.event).foldl collect {}).groups.distinct, List.map_map]
  · exact congrArg List.sum (List.map_congr_left hgroup)
  · intro turn hturn
    refine List.mem_map.mpr ⟨(turn.session, entries turn.session (history.map Step.event)), ?_, rfl⟩
    refine (mem_groups hnamed _).mpr ⟨?_, rfl⟩
    rw [entries_history h.ended]
    exact List.ne_nil_of_mem (List.mem_map_of_mem (List.mem_filter.mpr ⟨hturn, decide_eq_true rfl⟩))

end totals

end LeanFlow.Usage
