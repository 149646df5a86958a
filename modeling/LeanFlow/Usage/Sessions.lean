import LeanFlow.Usage.Aggregate
import Mathlib.Algebra.BigOperators.Group.List.Basic
import Mathlib.Data.List.Perm.Basic
import Mathlib.Tactic.Linarith

/-! What the aggregate of a run's events says of its sessions.

Where each event tells the truth, or nothing, a total that is called complete is the sum
over all turns; how the events of the sessions are interleaved makes no difference; and a
session whose total falls is not complete. -/
namespace LeanFlow.Usage
open General

/-! ### What is collected -/

def session (event : Event) : Text :=
  let agent_session_id := event.details.elim [] (·.agent_session_id)
  if agent_session_id ≠ [] then agent_session_id else event.agent_id

def ends (events : List Event) : List Event := events.filter fun event => event.type = conversation_end

/-- Every conversation end names its session. -/
def Named (events : List Event) : Prop := ∀ event ∈ ends events, session event ≠ []

theorem agent_key_eq {event : Event} (h : session event ≠ []) (n : Nat) : agent_key event n = session event := by
  unfold agent_key session at *
  simp only at h ⊢
  split
  · rfl
  · rename_i hid
    rw [if_neg hid] at h
    rw [if_pos h]

def calls (event : Event) : Option Int := (evidence event.details).1
def prompt (event : Event) : Option Int := (evidence event.details).2.1.map Prod.fst
def completion (event : Event) : Option Int := (evidence event.details).2.1.map Prod.snd
def entry (event : Event) : Entry := (evidence event.details).2.2

/-- The cost entries of a session. -/
def entries (k : Text) (events : List Event) : List Entry := ((ends events).filter fun event => session event = k).map entry

theorem ends_cons (event : Event) (events : List Event) :
    ends (event :: events) = if event.type = conversation_end then event :: ends events else ends events := by
  rw [ends, List.filter_cons]
  simp only [decide_eq_true_eq]
  rfl

theorem collect_other {event : Event} (h : event.type ≠ conversation_end) (totals : Collected) : collect totals event = totals := if_pos h

/-- A number that each conversation end adds to. -/
theorem foldl_number {M : Type} [AddMonoid M] (number : Collected → M) (part : Event → M)
    (step : ∀ totals event, event.type = conversation_end → number (collect totals event) = number totals + part event)
    (events : List Event) (totals : Collected) :
    number (events.foldl collect totals) = number totals + ((ends events).map part).sum := by
  induction events generalizing totals with
  | nil => simp [ends]
  | cons event events ih =>
    rw [List.foldl_cons, ih, ends_cons]
    by_cases h : event.type = conversation_end
    · rw [if_pos h, step totals event h, List.map_cons, List.sum_cons, add_assoc]
    · rw [if_neg h, collect_other h]

/-- A flag that each conversation end may clear. -/
theorem foldl_flag (flag : Collected → Bool) (part : Event → Bool)
    (step : ∀ totals event, event.type = conversation_end → flag (collect totals event) = (flag totals && part event))
    (events : List Event) (totals : Collected) :
    flag (events.foldl collect totals) = (flag totals && (ends events).all part) := by
  induction events generalizing totals with
  | nil => simp [ends]
  | cons event events ih =>
    rw [List.foldl_cons, ih, ends_cons]
    by_cases h : event.type = conversation_end
    · rw [if_pos h, step totals event h, List.all_cons, Bool.and_assoc]
    · rw [if_neg h, collect_other h]

/-- A set that each conversation end may add to. -/
theorem foldl_set (set : Collected → Finset Text) (part : Event → Finset Text)
    (step : ∀ totals event, event.type = conversation_end → set (collect totals event) = set totals ∪ part event)
    (events : List Event) (totals : Collected) (x : Text) :
    x ∈ set (events.foldl collect totals) ↔ x ∈ set totals ∨ ∃ event ∈ ends events, x ∈ part event := by
  induction events generalizing totals with
  | nil => simp [ends]
  | cons event events ih =>
    rw [List.foldl_cons, ih, ends_cons]
    by_cases h : event.type = conversation_end
    · rw [if_pos h, step totals event h, Finset.mem_union, or_assoc]
      simp
    · rw [if_neg h, collect_other h]

theorem collect_end {event : Event} (h : event.type = conversation_end) (totals : Collected) :
    collect totals event =
      { groups := totals.groups.set (agent_key event (totals.usage_events + 1))
          ((totals.groups.get? (agent_key event (totals.usage_events + 1))).getD [] ++ [entry event])
        api_calls := totals.api_calls + (calls event).getD 0
        input_tokens := totals.input_tokens + (prompt event).getD 0
        output_tokens := totals.output_tokens + (completion event).getD 0
        usage_events := totals.usage_events + 1
        api_calls_complete := totals.api_calls_complete && (calls event).isSome
        tokens_complete := totals.tokens_complete && (evidence event.details).2.1.isSome
        models := totals.models ∪ event.details.elim ∅ fun details => named details.model
        providers := totals.providers ∪ event.details.elim ∅ fun details => named details.provider } := if_neg (not_not_intro h)

theorem groups_foldl {events : List Event} (hnamed : Named events) (totals : Collected) (k : Text) :
    (events.foldl collect totals).groups.get? k =
      if entries k events = [] then totals.groups.get? k else some ((totals.groups.get? k).getD [] ++ entries k events) := by
  induction events generalizing totals with
  | nil => rfl
  | cons event events ih =>
    by_cases h : event.type = conversation_end
    · have hends : ends (event :: events) = event :: ends events := by rw [ends_cons, if_pos h]
      have hkey := agent_key_eq (hnamed event (hends ▸ List.mem_cons_self)) (totals.usage_events + 1)
      have hmore : Named events := fun other hother => hnamed other (hends ▸ List.mem_cons_of_mem event hother)
      rw [List.foldl_cons, ih hmore, collect_end h]
      simp only [hkey, Dict.get?_set]
      by_cases hk : k = session event
      · have hentries : entries k (event :: events) = entry event :: entries k events := by
          rw [entries, hends, List.filter_cons, if_pos (by simpa using hk.symm), List.map_cons, ← entries]
        rw [hentries, if_neg (List.cons_ne_nil _ _), if_pos hk, ← hk]
        split
        · rename_i hnil
          rw [hnil]
        · rw [Option.getD_some, List.append_assoc, List.singleton_append]
      · have hentries : entries k (event :: events) = entries k events := by
          rw [entries, hends, List.filter_cons, if_neg (by simpa using fun heq => hk heq.symm), ← entries]
        rw [hentries, if_neg hk]
    · have hends : ends (event :: events) = ends events := by rw [ends_cons, if_neg h]
      have hentries : entries k (event :: events) = entries k events := by rw [entries, hends, ← entries]
      rw [List.foldl_cons, collect_other h, hentries]
      exact ih (fun other hother => hnamed other (hends ▸ hother)) totals

/-- The groups of a run, by session. -/
theorem groups_eq {events : List Event} (hnamed : Named events) (k : Text) :
    (events.foldl collect {}).groups.get? k = if entries k events = [] then none else some (entries k events) := by
  rw [groups_foldl hnamed]
  rfl

theorem mem_groups {events : List Event} (hnamed : Named events) (group : Text × List Entry) :
    group ∈ (events.foldl collect {}).groups.items ↔ group.2 ≠ [] ∧ entries group.1 events = group.2 := by
  obtain ⟨k, found⟩ := group
  rw [← Dict.get?_eq_some_iff, groups_eq hnamed]
  split
  · rename_i hnil
    rw [hnil]
    exact ⟨nofun, fun h => absurd h.2.symm h.1⟩
  · rename_i hne
    exact ⟨fun h => ⟨Option.some.inj h ▸ hne, Option.some.inj h⟩, fun h => congrArg some h.2⟩

/-! ### The costs of the groups -/

theorem costs_foldl (groups : List (List Entry)) (costs : Costs) :
    (groups.foldl Costs.add costs).complete = (costs.complete && groups.all fun group => (combine_group group).counts) ∧
      ((groups.all fun group => (combine_group group).counts) = true →
        (groups.foldl Costs.add costs).total = costs.total + (groups.map fun group => (combine_group group).total).sum) := by
  induction groups generalizing costs with
  | nil => simp
  | cons group groups ih =>
    obtain ⟨hcomplete, htotal⟩ := ih (costs.add group)
    rw [List.foldl_cons, hcomplete, List.all_cons]
    cases hcounts : (combine_group group).counts with
    | true =>
      rw [Costs.add, if_pos hcounts] at htotal ⊢
      refine ⟨rfl, fun hall => ?_⟩
      rw [htotal hall, List.map_cons, List.sum_cons, add_assoc]
    | false =>
      rw [Costs.add, if_neg (by rw [hcounts]; exact Bool.false_ne_true)]
      exact ⟨by simp, fun hall => absurd hall (by simp)⟩

theorem costs_add_comm (costs : Costs) (a b : List Entry) : (costs.add a).add b = (costs.add b).add a := by
  unfold Costs.add
  cases (combine_group a).counts <;> cases (combine_group b).counts
  · rfl
  · rfl
  · rfl
  · simp only [if_pos]
    rw [Costs.mk.injEq]
    exact ⟨add_right_comm _ _ _, Finset.union_right_comm _ _ _, rfl⟩

/-! ### One session -/

/-- What a session's entries say of its costs, from what it had spent before: nothing, its
total, or the turn's cost. -/
def Told : ℚ → List (Entry × ℚ) → Prop
  | _, [] => True
  | past, (entry, cost) :: rest =>
    (match entry with
      | .missing => True
      | .provider_reported total => total = past + cost
      | .estimated turn => turn = cost) ∧ Told (past + cost) rest

/-- A group that is complete has the session's total. -/
theorem told_total {past : ℚ} {told : List (Entry × ℚ)} (h : Told past told) (group : Group)
    (hgroup : group.complete = true → group.total = past) :
    ((told.map Prod.fst).foldl Group.read group).complete = true →
      ((told.map Prod.fst).foldl Group.read group).total = past + (told.map Prod.snd).sum := by
  induction told generalizing past group with
  | nil => simpa using hgroup
  | cons one told ih =>
    obtain ⟨entry, cost⟩ := one
    obtain ⟨hentry, hrest⟩ := h
    rw [List.map_cons, List.foldl_cons, List.map_cons, List.sum_cons, ← add_assoc]
    refine ih hrest _ fun hcomplete => ?_
    cases entry with
    | missing => cases hcomplete
    | provider_reported total => exact hentry
    | estimated turn =>
      rw [← show turn = cost from hentry, ← hgroup hcomplete]
      rfl

/-- A group has regressed as soon as a total is well below an earlier one. -/
theorem regressed_foldl (entries : List Entry) (group : Group) (h : group.reported_regressed = true) :
    (entries.foldl Group.read group).reported_regressed = true := by
  induction entries generalizing group with
  | nil => exact h
  | cons entry entries ih =>
    rw [List.foldl_cons]
    refine ih _ ?_
    cases entry with
    | missing => exact h
    | provider_reported total =>
      rw [Group.read, h]
      rfl
    | estimated turn => exact h

theorem high_water_foldl (entries : List Entry) (group : Group) {total : ℚ} (h : ∃ high_water ∈ group.reported_high_water, total ≤ high_water) :
    ∃ high_water ∈ (entries.foldl Group.read group).reported_high_water, total ≤ high_water := by
  induction entries generalizing group with
  | nil => exact h
  | cons entry entries ih =>
    rw [List.foldl_cons]
    refine ih _ ?_
    obtain ⟨high_water, hmem, hle⟩ := h
    cases entry with
    | missing => exact ⟨high_water, hmem, hle⟩
    | provider_reported reported =>
      refine ⟨max high_water reported, ?_, le_max_of_le_left hle⟩
      rw [Group.read, show group.reported_high_water = some high_water from hmem]
      rfl
    | estimated turn => exact ⟨high_water, hmem, hle⟩

/-- The session's total falls, by more than the slack. -/
def Falls (reported : List ℚ) : Prop :=
  ∃ before high between low after, reported = before ++ high :: (between ++ low :: after) ∧ low < high - cumulative_cost_epsilon

def Entry.total : Entry → Option ℚ
  | .provider_reported total => some total
  | _ => none

/-- Where the total of an entry is read off, the entry is a reported one. -/
theorem total_split {entries : List Entry} {before after : List ℚ} {total : ℚ}
    (h : entries.filterMap Entry.total = before ++ total :: after) :
    ∃ l r, entries = l ++ .provider_reported total :: r ∧ r.filterMap Entry.total = after := by
  obtain ⟨l, rest, heq, -, hrest⟩ := List.filterMap_eq_append_iff.mp h
  obtain ⟨skipped, entry, r, heq', -, hentry, hr⟩ := List.filterMap_eq_cons_iff.mp hrest
  cases entry with
  | missing => cases hentry
  | estimated turn => cases hentry
  | provider_reported reported =>
    cases Option.some.inj hentry
    exact ⟨l ++ skipped, r, by rw [heq, heq', List.append_assoc], hr⟩

/-- A session whose total falls has regressed, whatever follows. -/
theorem falls_regressed {entries : List Entry} (h : Falls (entries.filterMap Entry.total)) :
    (combine_group entries).reported_regressed = true := by
  obtain ⟨before, high, between, low, after, heq, hlt⟩ := h
  obtain ⟨l, r, rfl, hr⟩ := total_split heq
  obtain ⟨m, tail, rfl, -⟩ := total_split hr
  rw [combine_group, List.foldl_append, List.foldl_cons, List.foldl_append, List.foldl_cons]
  refine regressed_foldl _ _ ?_
  have hfirst : ∃ high_water ∈ ((l.foldl Group.read {}).read (.provider_reported high)).reported_high_water, high ≤ high_water := by
    refine ⟨_, rfl, ?_⟩
    cases (l.foldl Group.read {}).reported_high_water with
    | none => exact le_refl high
    | some high_water => exact le_max_right high_water high
  obtain ⟨high_water, hmem, hle⟩ := high_water_foldl m _ hfirst
  rw [Group.read]
  simp only [Option.mem_def] at hmem
  rw [hmem, Option.any_some, decide_eq_true (lt_of_lt_of_le hlt (sub_le_sub_right hle _)), Bool.or_true]

end LeanFlow.Usage
