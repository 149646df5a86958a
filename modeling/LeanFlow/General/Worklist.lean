import Mathlib.Order.WellFoundedSet
import LeanFlow.General.Layers

/-! Work in rounds.

Each round takes the pending keys that need no pending key, in an order of its own.
When nothing needs itself a round is never empty (`exists_unblocked`), so that the
rounds take every key once, after what it needs: they are one pass over `rounds`
(`work_eq`). -/
namespace LeanFlow.General

variable {κ : Type} [DecidableEq κ] (next : κ → List κ)

/-- The pending keys that need no pending key. -/
def unblocked (pending : List κ) : List κ := pending.filter fun key => ∀ other ∈ next key, other ∉ pending

/-- What a key needs among the others. -/
def within (pending : List κ) (key : κ) : List κ := (next key).filter (· ∈ pending)

variable {next}

theorem exists_unblocked (hacyclic : Acyclic next) {pending : List κ} (h : pending ≠ []) : unblocked next pending ≠ [] := by
  have : IsStrictOrder κ fun a b => Needs next b a :=
    { irrefl := hacyclic, trans := fun a b c hab hbc => hbc.trans hab }
  obtain ⟨first, hfirst⟩ := List.exists_mem_of_ne_nil _ h
  have hwell : {key | key ∈ pending}.WellFoundedOn fun a b => Needs next b a := (List.finite_toSet pending).wellFoundedOn
  obtain ⟨⟨key, hkey⟩, -, hmin⟩ := hwell.has_min Set.univ ⟨⟨first, hfirst⟩, trivial⟩
  refine List.ne_nil_of_mem (a := key) (List.mem_filter.mpr ⟨hkey, decide_eq_true fun other hother hpending => ?_⟩)
  exact hmin ⟨other, hpending⟩ trivial (.single hother)

variable (next) (arrange : List κ → List κ)

/-- The keys in the order of their rounds. -/
def rounds : Nat → List κ → List κ
  | 0, _ => []
  | fuel + 1, pending =>
    let ready := arrange (unblocked next pending)
    ready ++ rounds fuel (pending.filter (· ∉ ready))

/-- The loop itself: it is stuck when a round is empty. -/
def work {m : Type → Type} [Monad m] {β : Type} (stuck : m β) (step : β → κ → m β) : Nat → List κ → β → m β
  | 0, _, result => pure result
  | fuel + 1, pending, result =>
    if pending = [] then pure result
    else
      let ready := arrange (unblocked next pending)
      if ready = [] then stuck
      else do
        let result ← ready.foldlM step result
        work stuck step fuel (pending.filter (· ∉ ready)) result

variable {next arrange}

section Rounds
variable (harrange : ∀ keys, (arrange keys).Perm keys) (hacyclic : Acyclic next)
include harrange hacyclic

theorem ready_ne_nil {pending : List κ} (h : pending ≠ []) : arrange (unblocked next pending) ≠ [] := by
  intro hnone
  have hperm := harrange (unblocked next pending)
  rw [hnone] at hperm
  exact exists_unblocked hacyclic h hperm.symm.eq_nil

/-- A round leaves fewer keys. -/
theorem rest_length {pending : List κ} {fuel : Nat} (hfuel : pending.length ≤ fuel + 1) :
    (pending.filter (· ∉ arrange (unblocked next pending))).length ≤ fuel := by
  by_cases hpending : pending = []
  · simp [hpending]
  · obtain ⟨key, hkey⟩ := List.exists_mem_of_ne_nil _ (ready_ne_nil harrange hacyclic hpending)
    have hmem : key ∈ pending := (List.mem_filter.mp ((harrange _).subset hkey)).1
    have hless : (pending.filter (· ∉ arrange (unblocked next pending))).length < pending.length :=
      List.length_filter_lt_length_iff_exists.mpr ⟨key, hmem, by simpa using hkey⟩
    omega

/-- **Every key is taken once.** -/
theorem rounds_perm {fuel : Nat} {pending : List κ} (hnodup : pending.Nodup) (hfuel : pending.length ≤ fuel) :
    (rounds next arrange fuel pending).Perm pending := by
  induction fuel generalizing pending with
  | zero => rw [List.length_eq_zero_iff.mp (Nat.le_zero.mp hfuel)]; exact .refl _
  | succ fuel ih =>
    have hready : (arrange (unblocked next pending)).Nodup := (harrange _).nodup_iff.mpr (hnodup.filter _)
    have hrest := ih (hnodup.filter fun key => decide (key ∉ arrange (unblocked next pending)))
      (rest_length harrange hacyclic hfuel)
    refine (hrest.append_left _).trans ((List.perm_ext_iff_of_nodup ?_ hnodup).mpr fun key => ?_)
    · refine hready.append (hnodup.filter _) fun key hkey hother => ?_
      exact of_decide_eq_true (List.mem_filter.mp hother).2 hkey
    · rw [List.mem_append, List.mem_filter, decide_eq_true_eq]
      constructor
      · rintro (hkey | ⟨hkey, -⟩)
        · exact (List.mem_filter.mp ((harrange _).subset hkey)).1
        · exact hkey
      · intro hkey
        by_cases hnow : key ∈ arrange (unblocked next pending)
        · exact Or.inl hnow
        · exact Or.inr ⟨hkey, hnow⟩

omit hacyclic in
/-- What is taken in a round needs nothing pending. -/
theorem within_ready {pending : List κ} {key : κ} (h : key ∈ arrange (unblocked next pending)) : within next pending key = [] := by
  have hfree := of_decide_eq_true (List.mem_filter.mp ((harrange _).subset h)).2
  exact List.filter_eq_nil_iff.mpr fun other hother => by simpa using hfree other hother

omit hacyclic in
/-- A path among the pending keys to one that is left stays among those that are left. -/
theorem needs_rest {pending : List κ} {a b : κ} (hneeds : Needs (within next pending) a b)
    (hb : b ∉ arrange (unblocked next pending)) :
    Needs (within next (pending.filter (· ∉ arrange (unblocked next pending)))) a b := by
  have hleft (x y : κ) (hy : y ∉ arrange (unblocked next pending)) (hstep : y ∈ within next pending x) :
      y ∈ within next (pending.filter (· ∉ arrange (unblocked next pending))) x := by
    obtain ⟨hnext, hpending⟩ := List.mem_filter.mp hstep
    exact List.mem_filter.mpr ⟨hnext, decide_eq_true (List.mem_filter.mpr ⟨of_decide_eq_true hpending, decide_eq_true hy⟩)⟩
  induction hneeds using Relation.TransGen.head_induction_on with
  | single hstep => exact .single (hleft _ _ hb hstep)
  | head hstep hpath ih =>
    refine .head (hleft _ _ (fun hready => ?_) hstep) ih
    obtain ⟨c, hc, -⟩ := Relation.TransGen.head'_iff.mp hpath
    rw [within_ready harrange hready] at hc
    cases hc

/-- **No key is taken before one that it needs** among the pending ones. -/
theorem rounds_pairwise {fuel : Nat} {pending : List κ} (hnodup : pending.Nodup) (hfuel : pending.length ≤ fuel) :
    (rounds next arrange fuel pending).Pairwise fun earlier later => ¬Needs (within next pending) earlier later := by
  induction fuel generalizing pending with
  | zero => exact .nil
  | succ fuel ih =>
    have hready {a b : κ} (ha : a ∈ arrange (unblocked next pending)) : ¬Needs (within next pending) a b := by
      intro hneeds
      obtain ⟨c, hc, -⟩ := Relation.TransGen.head'_iff.mp hneeds
      rw [within_ready harrange ha] at hc
      cases hc
    have hfewer := rest_length harrange hacyclic hfuel
    have hleft := hnodup.filter fun key => decide (key ∉ arrange (unblocked next pending))
    refine List.pairwise_append.mpr ⟨List.Pairwise.imp_of_mem (fun ha _ _ => hready ha) (List.pairwise_of_forall fun _ _ => trivial), ?_, fun a ha _ _ => hready ha⟩
    refine (ih hleft hfewer).imp_of_mem fun {a b} _ hb hother hneeds => hother (needs_rest harrange hneeds ?_)
    exact of_decide_eq_true (List.mem_filter.mp ((rounds_perm harrange hacyclic hleft hfewer).subset hb)).2

/-- **The loop is one pass**, and never stuck. -/
theorem work_eq {m : Type → Type} [Monad m] [LawfulMonad m] {β : Type} (stuck : m β) (step : β → κ → m β) {fuel : Nat}
    {pending : List κ} (hfuel : pending.length ≤ fuel) (result : β) :
    work next arrange stuck step fuel pending result = (rounds next arrange fuel pending).foldlM step result := by
  induction fuel generalizing pending result with
  | zero => rfl
  | succ fuel ih =>
    rw [work, rounds]
    dsimp only
    rw [List.foldlM_append]
    by_cases hpending : pending = []
    · subst hpending
      have hready : arrange (unblocked next []) = [] := (harrange _).eq_nil
      have hrest := @ih [] (Nat.zero_le _) result
      rw [if_pos rfl, hready, List.foldlM_nil, pure_bind, List.filter_nil, ← hrest]
      cases fuel with
      | zero => rfl
      | succ fuel => rw [work, if_pos rfl]
    · rw [if_neg hpending, if_neg (ready_ne_nil harrange hacyclic hpending)]
      exact bind_congr fun result => ih (rest_length harrange hacyclic hfuel) result

end Rounds

end LeanFlow.General
