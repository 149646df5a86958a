import LeanFlow.Usage.Complete

/-! The usage of a run.

The events of several sessions may be interleaved in any way, as long as each session's own
stay in order. -/
namespace LeanFlow.Usage
open General

/-- The same events, those of each session in the same order. -/
def Interleaved (a b : List Event) : Prop :=
  a.Perm b ∧ ∀ k, ((ends a).filter fun event => session event = k) = (ends b).filter fun event => session event = k

section interleaved

variable {a b : List Event} (h : Interleaved a b)
include h

theorem ends_perm : (ends a).Perm (ends b) := h.1.filter _

theorem entries_interleaved (k : Text) : entries k a = entries k b := by rw [entries, h.2, entries]

theorem named_interleaved (hnamed : Named a) : Named b := fun event hevent => hnamed event ((ends_perm h).mem_iff.mpr hevent)

theorem number_interleaved {M : Type} [AddCommMonoid M] (number : Collected → M) (part : Event → M)
    (step : ∀ totals event, event.type = conversation_end → number (collect totals event) = number totals + part event) :
    number (a.foldl collect {}) = number (b.foldl collect {}) := by
  rw [foldl_number number part step, foldl_number number part step, ((ends_perm h).map part).sum_eq]

theorem flag_interleaved (flag : Collected → Bool) (part : Event → Bool)
    (step : ∀ totals event, event.type = conversation_end → flag (collect totals event) = (flag totals && part event)) :
    flag (a.foldl collect {}) = flag (b.foldl collect {}) := by
  rw [foldl_flag flag part step, foldl_flag flag part step, (ends_perm h).all_eq]

theorem set_interleaved (set : Collected → Finset Text) (part : Event → Finset Text)
    (step : ∀ totals event, event.type = conversation_end → set (collect totals event) = set totals ∪ part event) :
    set (a.foldl collect {}) = set (b.foldl collect {}) := by
  ext x
  rw [foldl_set set part step, foldl_set set part step]
  refine or_congr_right (exists_congr fun event => ?_)
  rw [(ends_perm h).mem_iff]

theorem groups_interleaved (hnamed : Named a) : (a.foldl collect {}).groups.items.Perm (b.foldl collect {}).groups.items := by
  refine (List.perm_ext_iff_of_nodup (List.Nodup.of_map _ (Dict.distinct _)) (List.Nodup.of_map _ (Dict.distinct _))).mpr fun group => ?_
  rw [mem_groups hnamed, mem_groups (named_interleaved h hnamed), entries_interleaved h]

/-- What the groups cost does not depend on their order. -/
theorem costs_interleaved (hnamed : Named a) :
    ((a.foldl collect {}).groups.items.map Prod.snd).foldl Costs.add {} =
      ((b.foldl collect {}).groups.items.map Prod.snd).foldl Costs.add {} :=
  ((groups_interleaved h hnamed).map Prod.snd).foldl_eq' (fun x _ y _ costs => costs_add_comm costs x y) {}

theorem count_interleaved (type : Text) : count type a = count type b := (h.1.filter _).length_eq

theorem base_interleaved : base a = base b := by
  have hreasons : unmetered_reason_counts a = unmetered_reason_counts b := funext fun reason => (h.1.filter _).length_eq
  unfold base api_request_evidence
  simp only [count_interleaved h, hreasons]

theorem from_events_interleaved (hnamed : Named a) : from_events a (a.foldl collect {}) = from_events b (b.foldl collect {}) := by
  have hcalls := number_interleaved h Collected.api_calls (fun event => (calls event).getD 0) fun totals event hend => by rw [collect_end hend]
  have hcovered : covered a (a.foldl collect {}) = covered b (b.foldl collect {}) := by
    rw [covered, covered, count_interleaved h, base_interleaved h, hcalls]
  unfold from_events
  rw [costs_interleaved h hnamed, hcovered, base_interleaved h, hcalls, (groups_interleaved h hnamed).length_eq]
  rw [number_interleaved h Collected.input_tokens (fun event => (prompt event).getD 0) fun totals event hend => by rw [collect_end hend]]
  rw [number_interleaved h Collected.output_tokens (fun event => (completion event).getD 0) fun totals event hend => by rw [collect_end hend]]
  rw [number_interleaved h Collected.usage_events (fun _ => 1) fun totals event hend => by rw [collect_end hend]]
  rw [flag_interleaved h Collected.api_calls_complete (fun event => (calls event).isSome) fun totals event hend => by rw [collect_end hend]]
  rw [flag_interleaved h Collected.tokens_complete (fun event => (evidence event.details).2.1.isSome) fun totals event hend => by rw [collect_end hend]]
  rw [set_interleaved h Collected.models (fun event => event.details.elim ∅ fun details => named details.model)
    fun totals event hend => by rw [collect_end hend]]
  rw [set_interleaved h Collected.providers (fun event => event.details.elim ∅ fun details => named details.provider)
    fun totals event hend => by rw [collect_end hend]]

theorem aggregate_interleaved (hnamed : Named a) (log : LogUsage) : aggregate_usage a log = aggregate_usage b log := by
  have hevents := number_interleaved h Collected.usage_events (fun _ => 1) fun totals event hend => by rw [collect_end hend]
  unfold aggregate_usage
  simp only
  rw [hevents, from_events_interleaved h hnamed, from_log, base_interleaved h, ← from_log]

end interleaved

/-! ### Completeness -/

/-- A total is complete only where it was read from the events, and all of them. -/
theorem complete_events {events : List Event} {log : LogUsage}
    (h : (aggregate_usage events log).api_calls_complete = true ∨ (aggregate_usage events log).tokens_complete = true ∨
      (aggregate_usage events log).cost_complete = true) :
    aggregate_usage events log = from_events events (events.foldl collect {}) := by
  unfold aggregate_usage at *
  simp only at h ⊢
  split
  · rename_i hnone
    rw [if_pos hnone] at h
    obtain h | h | h := h <;> cases h
  · rfl

/-- A complete total is the sum over all turns. -/
theorem complete_totals {history : List Step} (h : Faithful history) (log : LogUsage) :
    ((aggregate_usage (history.map Step.event) log).api_calls_complete = true →
      (aggregate_usage (history.map Step.event) log).api_calls = some ((turns history).map Turn.calls).sum) ∧
    ((aggregate_usage (history.map Step.event) log).tokens_complete = true →
      (aggregate_usage (history.map Step.event) log).input_tokens = some ((turns history).map Turn.prompt).sum ∧
        (aggregate_usage (history.map Step.event) log).output_tokens = some ((turns history).map Turn.completion).sum) ∧
    ((aggregate_usage (history.map Step.event) log).cost_complete = true →
      (aggregate_usage (history.map Step.event) log).cost_usd = some ((turns history).map Turn.cost).sum) := by
  refine ⟨fun hcomplete => ?_, fun hcomplete => ?_, fun hcomplete => ?_⟩
  · have heq := complete_events (.inl hcomplete)
    rw [heq] at hcomplete ⊢
    have hcollected := (Bool.and_eq_true_iff.mp hcomplete).1
    exact (if_pos hcomplete).trans (congrArg some (calls_history h hcollected))
  · have heq := complete_events (.inr (.inl hcomplete))
    rw [heq] at hcomplete ⊢
    have hcollected := (Bool.and_eq_true_iff.mp hcomplete).1
    obtain ⟨hinput, houtput⟩ := tokens_history h hcollected
    exact ⟨(if_pos hcomplete).trans (congrArg some hinput), (if_pos hcomplete).trans (congrArg some houtput)⟩
  · have heq := complete_events (.inr (.inr hcomplete))
    rw [heq] at hcomplete ⊢
    have hcollected := (Bool.and_eq_true_iff.mp hcomplete).1
    exact (if_pos hcomplete).trans (congrArg some (cost_history h hcollected))

/-- A session whose total falls leaves the cost incomplete. -/
theorem falls_incomplete {events : List Event} (hnamed : Named events) {k : Text}
    (hfalls : Falls ((entries k events).filterMap Entry.total)) (log : LogUsage) :
    (aggregate_usage events log).cost_complete = false := by
  by_contra hcomplete
  rw [Bool.not_eq_false] at hcomplete
  rw [complete_events (.inr (.inr hcomplete))] at hcomplete
  have hall := (Bool.and_eq_true_iff.mp hcomplete).1
  rw [(costs_foldl _ _).1, Bool.true_and] at hall
  have hne : entries k events ≠ [] := by
    rintro hnil
    obtain ⟨before, high, between, low, after, heq, -⟩ := hfalls
    rw [hnil] at heq
    exact absurd heq.symm (by simp)
  have hmem := (mem_groups hnamed (k, entries k events)).mpr ⟨hne, rfl⟩
  have hcounts : (combine_group (entries k events)).counts = true := List.all_eq_true.mp hall _ (List.mem_map_of_mem hmem)
  rw [Group.counts, falls_regressed hfalls, Bool.not_true, Bool.and_false] at hcounts
  cases hcounts

/-- What a run's usage says of completeness, for every history, every interleaving of it
and every session whose total falls. -/
theorem usage_sound :
    (∀ (history : List Step) (log : LogUsage), Faithful history →
      ((aggregate_usage (history.map Step.event) log).api_calls_complete = true →
        (aggregate_usage (history.map Step.event) log).api_calls = some ((turns history).map Turn.calls).sum) ∧
      ((aggregate_usage (history.map Step.event) log).tokens_complete = true →
        (aggregate_usage (history.map Step.event) log).input_tokens = some ((turns history).map Turn.prompt).sum ∧
          (aggregate_usage (history.map Step.event) log).output_tokens = some ((turns history).map Turn.completion).sum) ∧
      ((aggregate_usage (history.map Step.event) log).cost_complete = true →
        (aggregate_usage (history.map Step.event) log).cost_usd = some ((turns history).map Turn.cost).sum)) ∧
    (∀ (a b : List Event) (log : LogUsage), Named a → Interleaved a b → aggregate_usage a log = aggregate_usage b log) ∧
    (∀ (events : List Event) (k : Text) (log : LogUsage), Named events → Falls ((entries k events).filterMap Entry.total) →
      (aggregate_usage events log).cost_complete = false) :=
  ⟨fun _ log h => complete_totals h log, fun _ _ log hnamed h => aggregate_interleaved h hnamed log,
    fun _ _ log hnamed hfalls => falls_incomplete hnamed hfalls log⟩

/-! ### Two sessions -/

def no_log : LogUsage := ⟨none, none, none, none, []⟩

/-- The end of a turn without calls, whose session has spent `total`. -/
def reporting (session_id : Text) (turn : Option Tokens) (total : ℚ) : Event where
  type := conversation_end
  details := some
    { agent_session_id := session_id
      api_calls := some 0
      usage := some { turn, cost := some { provider_reported_total_usd := some total } } }

def first : Turn := ⟨"a".toList, 0, 0, 0, 10, reporting "a".toList (some {}) 10⟩
def second : Turn := ⟨"b".toList, 0, 0, 0, 5, reporting "b".toList (some {}) 5⟩

theorem two_faithful : Faithful [.conversation first, .conversation second] where
  ended := by
    intro step hstep
    obtain rfl | rfl : step = .conversation first ∨ step = .conversation second := by simpa using hstep
    · exact ⟨rfl, rfl, by decide⟩
    · exact ⟨rfl, rfl, by decide⟩
  truthful := by
    intro before turn after heq
    have hboth : turn.event = reporting turn.session (some {}) turn.cost ∧ turn.calls = 0 ∧ spent turn.session before = 0 := by
      rcases before with _ | ⟨x, _ | ⟨y, before⟩⟩
      · cases heq
        exact ⟨rfl, rfl, rfl⟩
      · cases heq
        exact ⟨rfl, rfl, rfl⟩
      · cases before <;> cases heq
    obtain ⟨hevent, hcalls, hspent⟩ := hboth
    rw [hspent]
    constructor
    · rw [hevent]
      rintro details hdetails n hn
      cases hdetails
      cases hn
      exact hcalls.symm
    all_goals
      rw [hevent]
      rintro details hdetails usage husage
      cases hdetails
      cases husage
    · rintro tokens htokens n hn
      cases htokens
      cases hn
    · rintro tokens htokens n hn
      cases htokens
      cases hn
    · rintro cost hcost total htotal
      cases hcost
      cases htotal
      exact (zero_add _).symm
    · rintro cost hcost estimate hestimate
      cases hcost
      cases hestimate

theorem two_sound :
    (aggregate_usage [first.event, second.event] no_log).cost_usd = some 15 ∧
      aggregate_usage [first.event, second.event] no_log = aggregate_usage [second.event, first.event] no_log ∧
      (aggregate_usage [first.event, reporting "a".toList (some {}) 5] no_log).cost_complete = false := by
  obtain ⟨htotals, hinterleaved, hfalls⟩ := usage_sound
  refine ⟨?_, hinterleaved _ _ _ ?_ ?_, hfalls _ "a".toList _ ?_ ?_⟩
  · exact ((htotals _ no_log two_faithful).2.2 (by decide +kernel)).trans (by decide +kernel)
  · exact history_named two_faithful.ended
  · refine ⟨List.Perm.swap _ _ _, fun k => ?_⟩
    show [first.event, second.event].filter _ = [second.event, first.event].filter _
    have hkeys : ¬ (session first.event = k ∧ session second.event = k) := by
      rintro ⟨hfirst, hsecond⟩
      exact absurd (hfirst.trans hsecond.symm) (by decide)
    by_cases hfirst : session first.event = k <;> by_cases hsecond : session second.event = k
    · exact absurd ⟨hfirst, hsecond⟩ hkeys
    all_goals simp [hfirst, hsecond]
  · intro event hevent
    obtain rfl | rfl : event = first.event ∨ event = reporting "a".toList (some {}) 5 := by
      simpa using (List.mem_filter.mp hevent).1
    · decide
    · decide
  · refine ⟨[], 10, [], 5, [], ?_, by norm_num [cumulative_cost_epsilon]⟩
    decide +kernel

/-! ### A total that is not read -/

/-- The totals that the costs of a session report, with a turn record or without. -/
def reported (k : Text) (events : List Event) : List ℚ :=
  ((ends events).filter fun event => session event = k).filterMap fun event =>
    event.details.bind fun details => details.usage.bind fun usage => usage.cost.bind Cost.reported

/-- The first event's usage has no turn: its total is not read, and the fall is not seen. -/
theorem turnless_total_unread :
    ¬ ∀ (history : List Step) (k : Text) (log : LogUsage), (∀ step ∈ history, Ended step) →
      Falls (reported k (history.map Step.event)) → (aggregate_usage (history.map Step.event) log).cost_complete = false := by
  intro h
  have hfalse := h [.conversation { first with event := reporting "a".toList none 10 },
    .conversation { first with event := reporting "a".toList (some {}) 5 }] "a".toList no_log ?_ ?_
  · revert hfalse
    decide +kernel
  · intro step hstep
    obtain rfl | rfl := by simpa using hstep
    · exact ⟨rfl, rfl, by decide⟩
    · exact ⟨rfl, rfl, by decide⟩
  · refine ⟨[], 10, [], 5, [], ?_, by norm_num [cumulative_cost_epsilon]⟩
    decide +kernel

end LeanFlow.Usage
