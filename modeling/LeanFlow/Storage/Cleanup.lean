import LeanFlow.Storage.Entries
import Mathlib.Data.List.Sort
import Mathlib.Algebra.BigOperators.Group.List.Basic
import Mathlib.Algebra.Order.Ring.Int

/-! The sweep of managed storage.

The entries of one inventory are considered in the order of their last use, each at a
turn of its own: it is spared, kept, refused by the check right before the removal, stuck
in its removal, or removed. The sweep is read off its turns (`turns`): what was removed,
what is left of the total, and why anything is left.

The check right before a removal looks at the marker and the lease again, at no other
protection, and the free space is read anew at every turn. So the sweep is safe and
minimal where what it goes by is still so (`Undisturbed`), and only there. -/
namespace LeanFlow.Storage
open General Source Leases

structure Policy where
  cache_target_bytes : Nat
  min_free_bytes : Nat

/-- What a cleanup meets: the disk at its inventory, the disk and its free space at every
turn, the one after the last at the return, and what became of the abandoned views before. -/
structure Course where
  inventoried : World
  turn : Nat → World
  disk_free : Nat → Nat
  views_removed : List Location
  views_preserved : List Location

structure Sweep where
  total : Int
  turn : Nat
  removed : List Location
  failed : List Location
deriving DecidableEq

inductive Verdict where
  | spared
  | kept
  | refused
  | stuck
  | removed
deriving DecidableEq

section Sweep
variable (course : Course) (policy : Policy) (required_bytes : Nat)

def within_bounds (s : Sweep) : Prop :=
  s.total ≤ policy.cache_target_bytes ∧ policy.min_free_bytes + required_bytes ≤ course.disk_free s.turn

instance (s : Sweep) : Decidable (within_bounds course policy required_bytes s) := inferInstanceAs (Decidable (_ ∧ _))

def verdict (s : Sweep) (entry : Details) : Verdict :=
  if within_bounds course policy required_bytes s ∧ entry.kind.cache then .spared
  else if entry.protected_ then .kept
  else
    let world := course.turn s.turn
    match read_entry world entry.path, entry_is_leased world entry.path with
    | some _, some false => if world.removes entry.path then .removed else .stuck
    | _, _ => .refused

def consider (s : Sweep) (entry : Details) : Sweep :=
  let s' := { s with turn := s.turn + 1 }
  match verdict course policy required_bytes s entry with
  | .spared | .kept => s'
  | .refused | .stuck => { s' with failed := s.failed ++ [entry.path] }
  | .removed => { s' with total := s.total - entry.bytes, removed := s.removed ++ [entry.path] }

def by_last_use (a b : Details) : Prop := a.last_used ≤ b.last_used

instance : DecidableRel by_last_use := fun _ _ => inferInstanceAs (Decidable (_ ≤ _))

instance : Std.Total by_last_use := ⟨fun a b => le_total a.last_used b.last_used⟩

instance : IsTrans Details by_last_use := ⟨fun _ _ _ h h' => le_trans h h'⟩

def managed_bytes (entries : List Details) : Int := (entries.map fun entry => (entry.bytes : Int)).sum

def start : Sweep :=
  ⟨managed_bytes (inventory course.inventoried).1, 0, course.views_removed, course.views_preserved⟩

def queue : List Details := (inventory course.inventoried).1.insertionSort by_last_use

/-- `cleanup_storage`, without the reports around the sweep. -/
def cleanup_storage : Sweep := (queue course).foldl (consider course policy required_bytes) (start course)

/-! ### Turns -/

/-- Every entry with the sweep that it was considered in. -/
def turns (s : Sweep) : List Details → List (Sweep × Details)
  | [] => []
  | entry :: rest => (s, entry) :: turns (consider course policy required_bytes s entry) rest

/-- The entries that the turns removed. -/
def removals (passed : List (Sweep × Details)) : List Details :=
  (passed.filter fun t => verdict course policy required_bytes t.1 t.2 = .removed).map Prod.snd

/-- The entry was to be removed, and was not. -/
def fails (t : Sweep × Details) : Prop :=
  verdict course policy required_bytes t.1 t.2 = .refused ∨ verdict course policy required_bytes t.1 t.2 = .stuck

instance (t : Sweep × Details) : Decidable (fails course policy required_bytes t) := inferInstanceAs (Decidable (_ ∨ _))

def failures (passed : List (Sweep × Details)) : List Details :=
  (passed.filter fun t => fails course policy required_bytes t).map Prod.snd

variable {course policy required_bytes}

theorem turns_entries (s : Sweep) (l : List Details) : (turns course policy required_bytes s l).map Prod.snd = l := by
  induction l generalizing s with
  | nil => rfl
  | cons entry l ih => exact congrArg (entry :: ·) (ih _)

/-- What one turn does to the sweep. -/
theorem consider_spec (s : Sweep) (entry : Details) :
    (consider course policy required_bytes s entry).removed =
        s.removed ++ (removals course policy required_bytes [(s, entry)]).map Details.path ∧
      (consider course policy required_bytes s entry).failed =
        s.failed ++ (failures course policy required_bytes [(s, entry)]).map Details.path ∧
      (consider course policy required_bytes s entry).total =
        s.total - managed_bytes (removals course policy required_bytes [(s, entry)]) := by
  cases h : verdict course policy required_bytes s entry <;> simp [consider, removals, failures, fails, managed_bytes, h]

theorem removals_cons (t : Sweep × Details) (l : List (Sweep × Details)) :
    removals course policy required_bytes (t :: l) =
      removals course policy required_bytes [t] ++ removals course policy required_bytes l := by
  simp only [removals, ← List.map_append, ← List.filter_append, List.singleton_append]

theorem consider_turn (s : Sweep) (entry : Details) : (consider course policy required_bytes s entry).turn = s.turn + 1 := by
  unfold consider
  split <;> rfl

theorem failures_cons (t : Sweep × Details) (l : List (Sweep × Details)) :
    failures course policy required_bytes (t :: l) =
      failures course policy required_bytes [t] ++ failures course policy required_bytes l := by
  simp only [failures, ← List.map_append, ← List.filter_append, List.singleton_append]

theorem managed_bytes_append (a b : List Details) : managed_bytes (a ++ b) = managed_bytes a + managed_bytes b := by
  simp [managed_bytes]

theorem managed_bytes_nonneg (l : List Details) : 0 ≤ managed_bytes l := by
  induction l with
  | nil => exact le_rfl
  | cons entry l ih =>
    rw [← List.singleton_append, managed_bytes_append]
    simpa [managed_bytes] using Int.add_nonneg (Int.natCast_nonneg entry.bytes) ih

/-- What the sweep removed, failed to remove and took off the total is what its turns did. -/
theorem sweep_spec (s : Sweep) (l : List Details) :
    let passed := turns course policy required_bytes s l
    let final := l.foldl (consider course policy required_bytes) s
    final.removed = s.removed ++ (removals course policy required_bytes passed).map Details.path ∧
      final.failed = s.failed ++ (failures course policy required_bytes passed).map Details.path ∧
      final.total = s.total - managed_bytes (removals course policy required_bytes passed) ∧
      final.turn = s.turn + l.length := by
  induction l generalizing s with
  | nil => simp [turns, removals, failures, managed_bytes]
  | cons entry l ih =>
    obtain ⟨hremoved, hfailed, htotal, hturn⟩ := ih (consider course policy required_bytes s entry)
    obtain ⟨hfirst, hfirst', hless⟩ := @consider_spec course policy required_bytes s entry
    dsimp only
    rw [List.foldl_cons, hremoved, hfailed, htotal, hturn, hfirst, hfirst', hless, turns, removals_cons (s, entry) (turns ..),
      failures_cons (s, entry) (turns ..), managed_bytes_append, List.map_append, List.map_append, List.append_assoc,
      List.append_assoc, consider_turn, List.length_cons]
    exact ⟨rfl, rfl, by omega, by omega⟩

/-- The total at a turn is what the turns before it have left. -/
theorem turn_total {s : Sweep} {l : List Details} {before after : List (Sweep × Details)} {t : Sweep × Details}
    (h : turns course policy required_bytes s l = before ++ t :: after) :
    t.1.total = s.total - managed_bytes (removals course policy required_bytes before) := by
  induction before generalizing s l with
  | nil =>
    cases l with
    | nil => cases h
    | cons entry l =>
      obtain ⟨rfl, -⟩ := List.cons.inj h
      simp [removals, managed_bytes]
  | cons t' before ih =>
    cases l with
    | nil => cases h
    | cons entry l =>
      obtain ⟨rfl, hrest⟩ := List.cons.inj h
      rw [ih hrest, (@consider_spec course policy required_bytes s entry).2.2, removals_cons (s, entry) before,
        managed_bytes_append]
      omega

/-- The total does not grow from a turn to the end. -/
theorem final_total_le {s : Sweep} {l : List Details} {t : Sweep × Details} (h : t ∈ turns course policy required_bytes s l) :
    (l.foldl (consider course policy required_bytes) s).total ≤ t.1.total := by
  induction l generalizing s with
  | nil => cases h
  | cons entry l ih =>
    rcases List.mem_cons.mp h with rfl | hrest
    · rw [(@sweep_spec course policy required_bytes s (entry :: l)).2.2.1]
      exact Int.sub_le_self _ (managed_bytes_nonneg _)
    · exact ih hrest

/-! ### Verdicts -/

/-- What is looked at right before a removal lets the directory go. -/
def Removable (world : World) (entry : Location) : Prop :=
  (∃ marked, read_entry world entry = some marked) ∧ entry_is_leased world entry = some false ∧ world.removes entry = true

theorem verdict_removed {s : Sweep} {entry : Details} :
    verdict course policy required_bytes s entry = .removed ↔
      ¬(within_bounds course policy required_bytes s ∧ entry.kind.cache = true) ∧ entry.protected_ = false ∧
        Removable (course.turn s.turn) entry.path := by
  unfold verdict Removable
  dsimp only
  split
  · rename_i hspared
    simp [hspared]
  · rename_i hspared
    split
    · rename_i hprotected
      simp [hprotected]
    · rename_i hprotected
      split
      · rename_i marked hread hleased
        simp [hspared, hprotected, hread, hleased]
      · rename_i hchecks
        refine iff_of_false (by simp) fun ⟨_, _, ⟨marked, hread⟩, hleased, _⟩ => hchecks marked hread hleased

/-- An entry that is left without its removal failing was spared or is protected. -/
theorem verdict_left {s : Sweep} {entry : Details} (h : verdict course policy required_bytes s entry ≠ .removed)
    (hfails : ¬fails course policy required_bytes (s, entry)) (hprotected : entry.protected_ = false) :
    within_bounds course policy required_bytes s := by
  by_contra hbounds
  cases hverdict : verdict course policy required_bytes s entry with
  | removed => exact h hverdict
  | refused => exact hfails (Or.inl hverdict)
  | stuck => exact hfails (Or.inr hverdict)
  | spared =>
    unfold verdict at hverdict
    rw [if_neg fun hspared => hbounds hspared.1] at hverdict
    dsimp only at hverdict
    split at hverdict
    · cases hverdict
    · split at hverdict
      · split at hverdict <;> cases hverdict
      · cases hverdict
  | kept =>
    unfold verdict at hverdict
    rw [if_neg fun hspared => hbounds hspared.1] at hverdict
    dsimp only at hverdict
    split at hverdict
    · rename_i hkept
      cases hprotected.symm.trans hkept
    · split at hverdict
      · split at hverdict <;> cases hverdict
      · cases hverdict

theorem spared_of_bounds {s : Sweep} {entry : Details} (h : within_bounds course policy required_bytes s)
    (hcache : entry.kind.cache = true) : verdict course policy required_bytes s entry = .spared := by
  unfold verdict
  rw [if_pos ⟨h, hcache⟩]

end Sweep

/-! ### Sources of runtimes -/

/-- What the survey knows of the runtimes it keeps. -/
def Surveyed (world : World) (found : Inventory) : Prop :=
  ∀ r ∈ found.entries, r.kind = .runtime → r.protected_ = true →
    ∀ marked source, read_entry world r.path = some marked → source_root marked = some source → source ∈ found.active_sources

theorem survey_surveyed (world : World) {found : Inventory} (h : Surveyed world found) (entry : Location) :
    Surveyed world (survey world found entry) := by
  unfold survey
  split
  · exact h
  · rename_i marked hread
    split
    · exact h
    · rename_i reason hreason
      dsimp only
      have hfound : Surveyed world (if marked.kind = .runtime ∧ reason ≠ "" then
          { found with active_sources := found.active_sources ++ (source_root marked).toList } else found) := by
        split
        · intro r hr hkind hprotected marked' source hread' hsource
          exact List.mem_append_left _ (h r hr hkind hprotected marked' source hread' hsource)
        · exact h
      split
      · exact hfound
      · intro r hr hkind hprotected marked' source hread' hsource
        rcases List.mem_append.mp hr with hold | hnew
        · exact hfound r hold hkind hprotected marked' source hread' hsource
        · obtain rfl := List.mem_singleton.mp hnew
          obtain rfl := Option.some.inj (hread.symm.trans hread')
          have hkept : marked.kind = .runtime ∧ reason ≠ "" := ⟨hkind, by simpa using hprotected⟩
          simp only [if_pos hkept, List.mem_append, Option.mem_toList]
          exact Or.inr hsource

theorem pin_kind (world : World) (sources : List Location) (details : Details) :
    (pin_source world sources details).kind = details.kind ∧ (pin_source world sources details).path = details.path := by
  unfold pin_source
  split <;> exact ⟨rfl, rfl⟩

/-- The release that a kept runtime was installed from is kept. -/
theorem source_kept (world : World) {release runtime : Details} (hrelease : release ∈ (inventory world).1)
    (hruntime : runtime ∈ (inventory world).1) (hkind : release.kind = .runtime_release) (hkind' : runtime.kind = .runtime)
    (hprotected : runtime.protected_ = true) {marked : Marked} {source : Location}
    (hread : read_entry world runtime.path = some marked) (hsource : source_root marked = some source)
    (hwithin : path_is_within source (world.home ++ release.path) = true) : release.protected_ = true := by
  have hsurveyed : Surveyed world ((managed_candidates world).foldl (survey world) {}) := by
    refine List.foldlRecOn _ _ (fun _ hr => absurd hr List.not_mem_nil) fun found h entry _ => survey_surveyed world h entry
  obtain ⟨release', hrelease', rfl⟩ := List.mem_map.mp hrelease
  obtain ⟨runtime', hruntime', rfl⟩ := List.mem_map.mp hruntime
  obtain ⟨hsame, hpath⟩ := pin_kind world ((managed_candidates world).foldl (survey world) {}).active_sources release'
  obtain ⟨hsame', hpath'⟩ := pin_kind world ((managed_candidates world).foldl (survey world) {}).active_sources runtime'
  have hkept : runtime'.protected_ = true := by
    unfold pin_source at hprotected
    split at hprotected
    · rename_i hcond
      rw [hsame'] at hkind'
      cases hkind'.symm.trans hcond.1
    · exact hprotected
  have hmem := hsurveyed runtime' hruntime' (hsame' ▸ hkind') hkept marked source (hpath' ▸ hread) hsource
  unfold pin_source
  rw [if_pos]
  exact ⟨hsame ▸ hkind, List.any_eq_true.mpr ⟨source, hmem, hpath ▸ hwithin⟩⟩

/-! ### Safe and minimal sweeps -/

/-- The directory is the source of a runtime that something keeps. -/
def SourceOfKept (world : World) (release : Location) : Prop :=
  ∃ runtime ∈ managed_candidates world, ∃ marked reason source, read_entry world runtime = some marked ∧
    marked.kind = .runtime ∧ protection world runtime marked = some reason ∧ reason ≠ "" ∧
      source_root marked = some source ∧ path_is_within source (world.home ++ release) = true

/-- The entry is protected at this moment, on its own account or as the source of a runtime. -/
def Guarded (world : World) (entry : Location) : Prop :=
  ∃ marked, read_entry world entry = some marked ∧
    (protection world entry marked ≠ some "" ∨ marked.kind = .runtime_release ∧ SourceOfKept world entry)

section Minimal
variable (course : Course) (policy : Policy) (required_bytes : Nat)

/-- The turns of a cleanup. -/
abbrev passed : List (Sweep × Details) := turns course policy required_bytes (start course) (queue course)

/-- What a sweep is to do. A removal is to be right on the disk of its own turn, and to
keep the sources of the runtimes that the inventory protects. -/
structure Minimal : Prop where
  removed : ∀ before t after, passed course policy required_bytes = before ++ t :: after →
    verdict course policy required_bytes t.1 t.2 = .removed →
      (∃ marked, read_entry (course.turn t.1.turn) t.2.path = some marked) ∧
      entry_is_leased (course.turn t.1.turn) t.2.path = some false ∧ ¬Guarded (course.turn t.1.turn) t.2.path ∧
      (t.2.kind.cache = true →
        policy.cache_target_bytes <
          managed_bytes (inventory course.inventoried).1 - managed_bytes (removals course policy required_bytes before) ∨
        course.disk_free t.1.turn < policy.min_free_bytes + required_bytes) ∧
      ∀ runtime ∈ (inventory course.inventoried).1, runtime.kind = .runtime → runtime.protected_ = true → ∀ marked source,
        read_entry course.inventoried runtime.path = some marked → source_root marked = some source →
          t.2.kind = .runtime_release → ¬path_is_within source (course.inventoried.home ++ t.2.path)
  all : ((passed course policy required_bytes).map Prod.snd).Perm (inventory course.inventoried).1
  ordered : ((passed course policy required_bytes).map Prod.snd).Pairwise by_last_use
  reported : (cleanup_storage course policy required_bytes).removed =
      course.views_removed ++ (removals course policy required_bytes (passed course policy required_bytes)).map Details.path ∧
    (cleanup_storage course policy required_bytes).failed =
      course.views_preserved ++ (failures course policy required_bytes (passed course policy required_bytes)).map Details.path ∧
    (cleanup_storage course policy required_bytes).total = managed_bytes (inventory course.inventoried).1 -
      managed_bytes (removals course policy required_bytes (passed course policy required_bytes))
  left : within_bounds course policy required_bytes (cleanup_storage course policy required_bytes) ∨
    ∀ t ∈ passed course policy required_bytes, t.2.kind.cache = true →
      verdict course policy required_bytes t.1 t.2 ≠ .removed →
        t.2.protected_ = true ∨ fails course policy required_bytes t

/-- What the sweep goes by is still so: an entry that the inventory left unprotected has
not come under protection by the turn that lets it go, and the free space that spares a
cache entry is there on return. -/
structure Undisturbed : Prop where
  unused : ∀ t ∈ passed course policy required_bytes, t.2.protected_ = false →
    ¬(within_bounds course policy required_bytes t.1 ∧ t.2.kind.cache = true) →
      Removable (course.turn t.1.turn) t.2.path → ¬Guarded (course.turn t.1.turn) t.2.path
  free : (∃ t ∈ passed course policy required_bytes, t.2.protected_ = false ∧
    t.2.kind.cache = true ∧ within_bounds course policy required_bytes t.1) →
      policy.min_free_bytes + required_bytes ≤ course.disk_free (queue course).length

variable {course policy required_bytes}

theorem final_turn : (cleanup_storage course policy required_bytes).turn = (queue course).length :=
  (sweep_spec ..).2.2.2.trans (Nat.zero_add _)

/-- What is removed was an entry of the inventory, and unprotected in it. -/
theorem removed_listed {before after : List (Sweep × Details)} {t : Sweep × Details}
    (h : passed course policy required_bytes = before ++ t :: after) :
    t.2 ∈ (inventory course.inventoried).1 := by
  have hmem : t.2 ∈ (passed course policy required_bytes).map Prod.snd := by
    rw [h]
    exact List.mem_map_of_mem (by simp)
  rw [turns_entries] at hmem
  exact (List.perm_insertionSort ..).mem_iff.mp hmem

end Minimal

/-- Two dependencies of 100 bytes, used one after the other. -/
def two_dependencies : World where
  home := []
  now := 10
  is_symlink _ := false
  is_dir _ := true
  children parent := if parent = ["cache".toList, "dependencies".toList, "v1".toList] then
    [List.replicate 64 'b', List.replicate 64 'a'] else []
  marker entry := some (.ofList [("schema_version", .int 1), ("kind", .str "dependency".toList),
    ("key", .str (entry.getLast?.getD [])), ("created_at", .int 1), ("bytes", .int 100),
    ("last_used", .int (if entry.getLast? = some (List.replicate 64 'a') then 1 else 2))])
  leases _ := .missing
  kill _ := .no_such_process
  process_start _ := none
  installed := some []
  uses _ := false
  measure _ := none
  removes _ := true

example :
    let course : Course := ⟨two_dependencies, fun _ => two_dependencies, fun turn => 10 + turn, [], []⟩
    let final := cleanup_storage course ⟨100, 10⟩ 0
    final.removed = [["cache".toList, "dependencies".toList, "v1".toList, List.replicate 64 'a']] ∧ final.total = 100 := by
  decide +kernel

/-- A release, with a process that may use it. -/
def one_release (used : Bool) : World :=
  { two_dependencies with
    children := fun parent => if parent = ["releases".toList] then ["r1".toList] else []
    marker := fun _ => some (.ofList [("schema_version", .int 1), ("kind", .str "runtime-release".toList),
      ("key", .str "r1".toList), ("created_at", .int 1), ("bytes", .int 100), ("last_used", .int 1)])
    uses := fun _ => used }

/-- The process starts after the inventory. -/
def process_started : Course := ⟨one_release false, fun _ => one_release true, fun _ => 10, [], []⟩

/-- The space is gone once the second dependency has been spared. -/
def space_lost : Course := ⟨two_dependencies, fun _ => two_dependencies, fun turn => if turn = 2 then 0 else 10, [], []⟩

end LeanFlow.Storage
