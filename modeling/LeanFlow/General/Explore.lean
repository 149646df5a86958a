import Mathlib.Algebra.Ring.Nat
import Mathlib.Data.List.Nodup
import Mathlib.Logic.Relation

/-! Walks over a finite graph.

`explore` takes keys off a stack and follows each one once; `sweep` takes them off a queue;
`saturate` adds, round by round, what depends on the keys it has. The first and the last are
cut off after a number of turns that is enough (`mem_explore_iff`, `mem_saturate`); a queue
runs empty by itself (`mem_sweep_iff`). -/
namespace LeanFlow.General

variable {κ : Type} [DecidableEq κ]

/-! ### A stack -/

/-- The keys that were taken off the stack. -/
def explore (next : κ → List κ) : Nat → List κ → List κ → List κ
  | 0, _, reached => reached
  | _ + 1, [], reached => reached
  | fuel + 1, key :: pending, reached =>
    if key ∈ reached then explore next fuel pending reached
    else explore next fuel ((next key).reverse ++ pending) (key :: reached)

/-- The edges out of keys that were not reached. -/
def unfollowed (next : κ → List κ) (keys reached : List κ) : Nat :=
  ((keys.filter (· ∉ reached)).map fun key => (next key).length).sum

theorem unfollowed_cons {next : κ → List κ} {keys reached : List κ} {key : κ} (hkeys : keys.Nodup) (hkey : key ∈ keys)
    (hnew : key ∉ reached) :
    unfollowed next keys (key :: reached) + (next key).length = unfollowed next keys reached := by
  induction keys with
  | nil => cases hkey
  | cons k keys ih =>
    obtain ⟨hk, hkeys⟩ := List.nodup_cons.mp hkeys
    unfold unfollowed
    rcases List.mem_cons.mp hkey with rfl | hkey
    · have hsame : keys.filter (· ∉ key :: reached) = keys.filter (· ∉ reached) := by
        refine List.filter_congr fun j hj => ?_
        have hne : j ≠ key := fun h => hk (h ▸ hj)
        simp [hne]
      rw [List.filter_cons_of_neg (by simp), List.filter_cons_of_pos (by simpa using hnew), hsame, List.map_cons,
        List.sum_cons, Nat.add_comm]
    · have hne : k ≠ key := fun h => hk (h ▸ hkey)
      have hrest := ih hkeys hkey
      unfold unfollowed at hrest
      by_cases hreached : k ∈ reached
      · rw [List.filter_cons_of_neg (by simp [hreached]), List.filter_cons_of_neg (by simp [hreached])]
        exact hrest
      · rw [List.filter_cons_of_pos (by simp [hne, hreached]), List.filter_cons_of_pos (by simp [hreached]), List.map_cons,
          List.sum_cons, List.map_cons, List.sum_cons, Nat.add_assoc, hrest]

theorem subset_explore (next : κ → List κ) (fuel : Nat) (pending reached : List κ) :
    reached ⊆ explore next fuel pending reached := by
  fun_induction explore next fuel pending reached with
  | case1 => exact List.Subset.refl _
  | case2 => exact List.Subset.refl _
  | case3 fuel key pending reached h ih => exact ih
  | case4 fuel key pending reached h ih => exact fun x hx => ih (List.mem_cons_of_mem key hx)

/-- Everything that is reached comes from the start. -/
theorem explore_sound {next : κ → List κ} {P : κ → Prop} (hnext : ∀ key, P key → ∀ x ∈ next key, P x) {fuel : Nat}
    {pending reached : List κ} (hpending : ∀ x ∈ pending, P x) (hreached : ∀ x ∈ reached, P x) :
    ∀ x ∈ explore next fuel pending reached, P x := by
  fun_induction explore next fuel pending reached with
  | case1 => exact hreached
  | case2 => exact hreached
  | case3 fuel key pending reached h ih => exact ih (fun x hx => hpending x (List.mem_cons_of_mem _ hx)) hreached
  | case4 fuel key pending reached h ih =>
    have hkey := hpending key (List.mem_cons_self ..)
    refine ih (fun x hx => ?_) (List.forall_mem_cons.mpr ⟨hkey, hreached⟩)
    rcases List.mem_append.mp hx with hx | hx
    · exact hnext key hkey x (List.mem_reverse.mp hx)
    · exact hpending x (List.mem_cons_of_mem _ hx)

/-- With enough turns the stack is emptied, and what is reached is closed. -/
theorem explore_closed {next : κ → List κ} {keys : List κ} (hkeys : keys.Nodup)
    (hnext : ∀ key ∈ keys, next key ⊆ keys) {fuel : Nat} {pending reached : List κ} (hpending : pending ⊆ keys)
    (hfuel : pending.length + unfollowed next keys reached ≤ fuel)
    (hclosed : ∀ key ∈ reached, ∀ x ∈ next key, x ∈ reached ∨ x ∈ pending) :
    (∀ x ∈ pending, x ∈ explore next fuel pending reached) ∧
      ∀ key ∈ explore next fuel pending reached, ∀ x ∈ next key, x ∈ explore next fuel pending reached := by
  fun_induction explore next fuel pending reached with
  | case1 pending reached =>
    obtain rfl : pending = [] := List.length_eq_zero_iff.mp (by omega)
    exact ⟨fun _ => nofun, fun key hkey x hx => (hclosed key hkey x hx).resolve_right List.not_mem_nil⟩
  | case2 _ reached =>
    exact ⟨fun _ => nofun, fun key hkey x hx => (hclosed key hkey x hx).resolve_right List.not_mem_nil⟩
  | case3 fuel key pending reached h ih =>
    obtain ⟨-, hrest⟩ := List.cons_subset.mp hpending
    have hclosed' (k : κ) (hk : k ∈ reached) (x : κ) (hx : x ∈ next k) : x ∈ reached ∨ x ∈ pending := by
      rcases hclosed k hk x hx with hx | hx
      · exact Or.inl hx
      · rcases List.mem_cons.mp hx with rfl | hx
        · exact Or.inl h
        · exact Or.inr hx
    obtain ⟨hall, hresult⟩ := ih hrest (by rw [List.length_cons] at hfuel; omega) hclosed'
    refine ⟨fun x hx => ?_, hresult⟩
    rcases List.mem_cons.mp hx with rfl | hx
    · exact subset_explore next fuel pending reached h
    · exact hall x hx
  | case4 fuel key pending reached h ih =>
    obtain ⟨hkey, hrest⟩ := List.cons_subset.mp hpending
    have hpending' : (next key).reverse ++ pending ⊆ keys := by
      intro x hx
      rcases List.mem_append.mp hx with hx | hx
      · exact hnext key hkey (List.mem_reverse.mp hx)
      · exact hrest hx
    have hcount := @unfollowed_cons _ _ next _ _ _ hkeys hkey h
    have hclosed' (k : κ) (hk : k ∈ key :: reached) (x : κ) (hx : x ∈ next k) :
        x ∈ key :: reached ∨ x ∈ (next key).reverse ++ pending := by
      rcases List.mem_cons.mp hk with rfl | hk
      · exact Or.inr (List.mem_append_left _ (List.mem_reverse.mpr hx))
      · rcases hclosed k hk x hx with hx | hx
        · exact Or.inl (List.mem_cons_of_mem _ hx)
        · rcases List.mem_cons.mp hx with rfl | hx
          · exact Or.inl (List.mem_cons_self ..)
          · exact Or.inr (List.mem_append_right _ hx)
    have hfuel' : ((next key).reverse ++ pending).length + unfollowed next keys (key :: reached) ≤ fuel := by
      rw [List.length_append, List.length_reverse]
      rw [List.length_cons] at hfuel
      omega
    obtain ⟨hall, hresult⟩ := ih hpending' hfuel' hclosed'
    refine ⟨fun x hx => ?_, hresult⟩
    rcases List.mem_cons.mp hx with rfl | hx
    · exact subset_explore next fuel _ _ (List.mem_cons_self ..)
    · exact hall x (List.mem_append_right _ hx)

/-- **A walk reaches just what there is a path to.** -/
theorem mem_explore_iff {next : κ → List κ} {keys start : List κ} (hkeys : keys.Nodup)
    (hnext : ∀ key ∈ keys, next key ⊆ keys) (hstart : start ⊆ keys) {fuel : Nat}
    (hfuel : start.length + (keys.map fun key => (next key).length).sum ≤ fuel) (x : κ) :
    x ∈ explore next fuel start [] ↔ ∃ s ∈ start, Relation.ReflTransGen (fun a b => b ∈ next a) s x := by
  constructor
  · refine fun hx => explore_sound (P := fun x => ∃ s ∈ start, Relation.ReflTransGen (fun a b => b ∈ next a) s x)
      (fun key ⟨s, hs, hpath⟩ y hy => ⟨s, hs, hpath.tail hy⟩) (fun s hs => ⟨s, hs, .refl⟩)
      (fun _ h => (List.not_mem_nil h).elim) x hx
  · rintro ⟨s, hs, hpath⟩
    have hall : unfollowed next keys [] = (keys.map fun key => (next key).length).sum := by
      rw [unfollowed, List.filter_eq_self.mpr fun key _ => by simp]
    rw [← hall] at hfuel
    obtain ⟨hstarted, hclosed⟩ := explore_closed hkeys hnext hstart hfuel fun _ h => (List.not_mem_nil h).elim
    induction hpath with
    | refl => exact hstarted s hs
    | tail _ hstep ih => exact hclosed _ ih _ hstep

/-! ### A queue -/

theorem filter_new_lt {known seen : List κ} {key : κ} (hknown : key ∈ known) (hnew : key ∉ seen) :
    (known.filter (· ∉ key :: seen)).length < (known.filter (· ∉ seen)).length := by
  have hfilter : known.filter (· ∉ key :: seen) = (known.filter (· ∉ seen)).filter (· ≠ key) := by
    rw [List.filter_filter]
    exact List.filter_congr fun x _ => by simp [not_or]
  rw [hfilter]
  exact List.length_filter_lt_length_iff_exists.mpr ⟨key, List.mem_filter.mpr ⟨hknown, by simpa using hnew⟩, by simp⟩

theorem filter_new_le (known seen : List κ) (key : κ) :
    (known.filter (· ∉ key :: seen)).length ≤ (known.filter (· ∉ seen)).length := by
  refine (List.monotone_filter_right known fun x hx => ?_).length_le
  simp only [List.mem_cons, not_or, decide_eq_true_eq] at hx ⊢
  exact hx.2

/-- The keys as they are first taken off the queue; the edges out of a key that is not known are not followed. -/
def sweep (next : κ → List κ) (known : List κ) : List κ → List κ → List κ
  | [], _ => []
  | key :: pending, seen =>
    if key ∈ seen then sweep next known pending seen
    else if key ∈ known then key :: sweep next known (pending ++ next key) (key :: seen)
    else key :: sweep next known pending (key :: seen)
termination_by pending seen => ((known.filter (· ∉ seen)).length, pending.length)
decreasing_by
  · exact Prod.Lex.right _ (Nat.lt_succ_self _)
  · rename_i hnew hknown
    exact Prod.Lex.left _ _ (filter_new_lt hknown hnew)
  · rcases Nat.lt_or_eq_of_le (filter_new_le known seen key) with h | h
    · exact Prod.Lex.left _ _ h
    · rw [h]
      exact Prod.Lex.right _ (Nat.lt_succ_self _)

section Sweep
variable {next : κ → List κ} {known : List κ}

theorem sweep_nodup (pending seen : List κ) :
    (sweep next known pending seen).Nodup ∧ ∀ x ∈ sweep next known pending seen, x ∉ seen := by
  fun_induction sweep next known pending seen with
  | case1 => exact ⟨.nil, fun _ h => absurd h List.not_mem_nil⟩
  | case2 _ _ _ _ ih => exact ih
  | case3 key pending seen hnew _ ih =>
    exact ⟨List.nodup_cons.mpr ⟨fun h => ih.2 key h (List.mem_cons_self ..), ih.1⟩,
      List.forall_mem_cons.mpr ⟨hnew, fun x hx h => ih.2 x hx (List.mem_cons_of_mem _ h)⟩⟩
  | case4 key pending seen hnew _ ih =>
    exact ⟨List.nodup_cons.mpr ⟨fun h => ih.2 key h (List.mem_cons_self ..), ih.1⟩,
      List.forall_mem_cons.mpr ⟨hnew, fun x hx h => ih.2 x hx (List.mem_cons_of_mem _ h)⟩⟩

/-- Whatever is taken comes from the queue. -/
theorem sweep_sound {P : κ → Prop} (hnext : ∀ key ∈ known, P key → ∀ x ∈ next key, P x) {pending seen : List κ}
    (hpending : ∀ x ∈ pending, P x) : ∀ x ∈ sweep next known pending seen, P x := by
  fun_induction sweep next known pending seen with
  | case1 => exact fun _ h => absurd h List.not_mem_nil
  | case2 _ _ _ _ ih => exact ih (List.forall_mem_cons.mp hpending).2
  | case3 key pending seen _ hknown ih =>
    obtain ⟨hkey, hrest⟩ := List.forall_mem_cons.mp hpending
    refine List.forall_mem_cons.mpr ⟨hkey, ih fun x hx => ?_⟩
    exact (List.mem_append.mp hx).elim (hrest x) (hnext key hknown hkey x)
  | case4 key pending seen _ _ ih =>
    obtain ⟨hkey, hrest⟩ := List.forall_mem_cons.mp hpending
    exact List.forall_mem_cons.mpr ⟨hkey, ih hrest⟩

omit [DecidableEq κ] in
theorem mem_of_seen_cons {seen taken : List κ} {key x : κ} (h : x ∈ key :: seen ∨ x ∈ taken) : x ∈ seen ∨ x ∈ key :: taken := by
  rcases h with h | h
  · exact (List.mem_cons.mp h).elim (fun h => Or.inr (h ▸ List.mem_cons_self ..)) Or.inl
  · exact Or.inr (List.mem_cons_of_mem _ h)

/-- The queue runs empty: all of it is taken, with what its keys lead to. -/
theorem sweep_closed (pending seen : List κ) :
    (∀ x ∈ pending, x ∈ seen ∨ x ∈ sweep next known pending seen) ∧
      ∀ key ∈ sweep next known pending seen, key ∈ known → ∀ x ∈ next key, x ∈ seen ∨ x ∈ sweep next known pending seen := by
  fun_induction sweep next known pending seen with
  | case1 => exact ⟨fun _ h => absurd h List.not_mem_nil, fun _ h => absurd h List.not_mem_nil⟩
  | case2 key pending seen hseen ih => exact ⟨List.forall_mem_cons.mpr ⟨Or.inl hseen, ih.1⟩, ih.2⟩
  | case3 key pending seen hnew hknown ih =>
    refine ⟨List.forall_mem_cons.mpr ⟨Or.inr (List.mem_cons_self ..), fun x hx => ?_⟩, List.forall_mem_cons.mpr ⟨fun _ x hx => ?_, ?_⟩⟩
    · exact mem_of_seen_cons (ih.1 x (List.mem_append_left _ hx))
    · exact mem_of_seen_cons (ih.1 x (List.mem_append_right _ hx))
    · exact fun k hk hknown x hx => mem_of_seen_cons (ih.2 k hk hknown x hx)
  | case4 key pending seen hnew hunknown ih =>
    refine ⟨List.forall_mem_cons.mpr ⟨Or.inr (List.mem_cons_self ..), fun x hx => mem_of_seen_cons (ih.1 x hx)⟩, List.forall_mem_cons.mpr ⟨fun h => absurd h hunknown, ?_⟩⟩
    exact fun k hk hknown x hx => mem_of_seen_cons (ih.2 k hk hknown x hx)

/-- **The queue takes just what there is a path to** over known keys. -/
theorem mem_sweep_iff (start : List κ) (x : κ) :
    x ∈ sweep next known start [] ↔ ∃ s ∈ start, Relation.ReflTransGen (fun a b => a ∈ known ∧ b ∈ next a) s x := by
  constructor
  · exact sweep_sound (P := fun x => ∃ s ∈ start, Relation.ReflTransGen (fun a b => a ∈ known ∧ b ∈ next a) s x)
      (fun key hknown ⟨s, hs, hpath⟩ y hy => ⟨s, hs, hpath.tail ⟨hknown, hy⟩⟩) (fun s hs => ⟨s, hs, .refl⟩) x
  · rintro ⟨s, hs, hpath⟩
    obtain ⟨hstarted, hclosed⟩ := @sweep_closed _ _ next known start []
    induction hpath with
    | refl => exact (hstarted s hs).resolve_left List.not_mem_nil
    | tail _ hstep ih => exact (hclosed _ ih hstep.1 _ hstep.2).resolve_left List.not_mem_nil

end Sweep

/-! ### Rounds -/

/-- Add the keys that depend on one there is, until there are no more. -/
def saturate (keys : List κ) (depends : κ → κ → Bool) : Nat → List κ → List κ
  | 0, found => found
  | fuel + 1, found =>
    let more := keys.filter fun key => key ∉ found ∧ found.any (depends key)
    if more = [] then found else saturate keys depends fuel (found ++ more)

theorem subset_saturate (keys : List κ) (depends : κ → κ → Bool) (fuel : Nat) (found : List κ) :
    found ⊆ saturate keys depends fuel found := by
  induction fuel generalizing found with
  | zero => exact List.Subset.refl _
  | succ fuel ih =>
    unfold saturate
    dsimp only
    split
    · exact List.Subset.refl _
    · exact fun x hx => ih _ (List.mem_append_left _ hx)

theorem saturate_closed {keys : List κ} {depends : κ → κ → Bool} {fuel : Nat} {found : List κ}
    (hfuel : (keys.filter (· ∉ found)).length < fuel) :
    ∀ key ∈ keys, (saturate keys depends fuel found).any (depends key) = true → key ∈ saturate keys depends fuel found := by
  induction fuel generalizing found with
  | zero => exact absurd hfuel (Nat.not_lt_zero _)
  | succ fuel ih =>
    unfold saturate
    dsimp only
    split
    · rename_i hnone
      intro key hkey hdepends
      by_contra hnew
      have hmem : key ∈ keys.filter fun key => key ∉ found ∧ found.any (depends key) :=
        List.mem_filter.mpr ⟨hkey, decide_eq_true ⟨hnew, hdepends⟩⟩
      rw [hnone] at hmem
      cases hmem
    · rename_i hmore
      apply ih
      obtain ⟨key, hkey⟩ := List.exists_mem_of_ne_nil _ hmore
      obtain ⟨hmem, hnew⟩ := List.mem_filter.mp hkey
      set more := keys.filter fun key => key ∉ found ∧ found.any (depends key)
      have hsub : (keys.filter (· ∉ found ++ more)).length < (keys.filter (· ∉ found)).length := by
        have hfilter : keys.filter (· ∉ found ++ more) = (keys.filter (· ∉ found)).filter (· ∉ more) := by
          rw [List.filter_filter]
          refine List.filter_congr fun x _ => ?_
          rw [Bool.and_comm]
          simp [not_or]
        rw [hfilter]
        refine List.length_filter_lt_length_iff_exists.mpr ⟨key, List.mem_filter.mpr ⟨hmem, ?_⟩, ?_⟩
        · exact decide_eq_true (of_decide_eq_true hnew).1
        · simpa using hkey
      omega

/-- **Whatever depends on a key, over any number of keys, is found.** -/
theorem mem_saturate {keys : List κ} {depends : κ → κ → Bool} (hdepends : ∀ {a b}, depends a b = true → a ∈ keys)
    {found : List κ} {fuel : Nat} (hfuel : keys.length < fuel) {x y : κ} (hx : x ∈ found)
    (hpath : Relation.ReflTransGen (fun a b => depends b a = true) x y) : y ∈ saturate keys depends fuel found := by
  have hcount : (keys.filter (· ∉ found)).length < fuel := Nat.lt_of_le_of_lt (List.length_filter_le _ _) hfuel
  induction hpath with
  | refl => exact subset_saturate keys depends fuel found hx
  | tail _ hstep ih => exact saturate_closed hcount _ (hdepends hstep) (List.any_eq_true.mpr ⟨_, ih, hstep⟩)

/-- Nothing else is found. -/
theorem saturate_sound {keys : List κ} {depends : κ → κ → Bool} {P : κ → Prop}
    (hdepends : ∀ a b, depends a b = true → P b → P a) {fuel : Nat} {found : List κ} (hfound : ∀ x ∈ found, P x) :
    ∀ x ∈ saturate keys depends fuel found, P x := by
  induction fuel generalizing found with
  | zero => exact hfound
  | succ fuel ih =>
    unfold saturate
    dsimp only
    split
    · exact hfound
    · refine ih fun x hx => ?_
      rcases List.mem_append.mp hx with hx | hx
      · exact hfound x hx
      · obtain ⟨-, hnew⟩ := List.mem_filter.mp hx
        obtain ⟨b, hb, hstep⟩ := List.any_eq_true.mp (of_decide_eq_true hnew).2
        exact hdepends x b hstep (hfound b hb)

/-- **What is found is just what depends on the start.** -/
theorem mem_saturate_iff {keys : List κ} {depends : κ → κ → Bool} (hdepends : ∀ {a b}, depends a b = true → a ∈ keys)
    {fuel : Nat} (hfuel : keys.length < fuel) (start y : κ) :
    y ∈ saturate keys depends fuel [start] ↔ Relation.ReflTransGen (fun a b => depends b a = true) start y := by
  constructor
  · exact saturate_sound (fun a b hstep hpath => hpath.tail hstep)
      (fun x hx => List.mem_singleton.mp hx ▸ Relation.ReflTransGen.refl) y
  · exact mem_saturate hdepends hfuel (List.mem_singleton_self start)

end LeanFlow.General
