import LeanFlow.Leases.FileLocks
import Mathlib.Data.List.DropRight

/-! No two owners overlap.

Every transaction keeps the registry `Exclusive`: leases of different owners are on
different paths and neither path is inside a namespace of the other. A request is granted
only beside the leases of its own owner and those it may evict, and dropping leases drops
no exclusion. -/
namespace LeanFlow.Leases
open General Source

variable {C : CharClass}

/-- Two leases that do not overlap. -/
def Apart (a b : Location × Entry) : Prop :=
  a.1 ≠ b.1 ∧ ¬(a.2.kind = .namespace_lock ∧ a.1 <+: b.1) ∧ ¬(b.2.kind = .namespace_lock ∧ b.1 <+: a.1)

structure Exclusive (C : CharClass) (locks : Locks) : Prop where
  owned : ∀ item ∈ locks.items, item.2.owner_id ≠ [] ∧ strip C item.2.owner_id = item.2.owner_id
  apart : ∀ a ∈ locks.items, ∀ b ∈ locks.items, a.2.owner_id ≠ b.2.owner_id → Apart a b

theorem lstrip_rstrip (text : Text) : lstrip C (rstrip C (lstrip C text)) = rstrip C (lstrip C text) := by
  unfold lstrip rstrip
  have hprefix : (((text.dropWhile C.space).reverse.dropWhile C.space).reverse) <+: text.dropWhile C.space := by
    rw [← List.reverse_suffix, List.reverse_reverse]
    exact List.dropWhile_suffix _
  generalize ((text.dropWhile C.space).reverse.dropWhile C.space).reverse = kept at hprefix
  cases kept with
  | nil => rfl
  | cons c kept =>
    obtain ⟨rest, hrest⟩ := hprefix
    refine List.dropWhile_cons_of_neg ?_
    have hhead := List.head_dropWhile_not C.space (l := text) (by rw [← hrest]; exact List.cons_ne_nil _ _)
    simp only [← hrest, List.cons_append, List.head_cons] at hhead
    simp [hhead]

theorem strip_strip (text : Text) : strip C (strip C text) = strip C text := by
  have hrstrip (text : Text) : rstrip C (rstrip C text) = rstrip C text := by
    rw [rstrip, rstrip, List.reverse_reverse, List.dropWhile_idempotent]
  rw [strip, strip, lstrip_rstrip, hrstrip]

theorem Exclusive.subset {locks less : Locks} (h : Exclusive C locks) (hless : ∀ item ∈ less.items, item ∈ locks.items) :
    Exclusive C less :=
  ⟨fun item hitem => h.owned item (hless item hitem), fun a ha b hb => h.apart a (hless a ha) b (hless b hb)⟩

theorem mem_cleanup {world : World} {locks : Locks} {item : Location × Entry} (h : item ∈ (cleanup_expired world locks).items) :
    item ∈ locks.items :=
  (List.mem_filter.mp h).1

theorem mem_write {locks : Locks} {item : Location × Entry} : item ∈ (write_payload locks).items ↔ item ∈ locks.items :=
  List.mem_insertionSort _

theorem get?_reorder {κ α : Type} [DecidableEq κ] (d : Dict κ α) (items : List (κ × α)) (h : items.Perm d.items) (k : κ) :
    (d.reorder items h).get? k = d.get? k := by
  ext v
  rw [Dict.get?_eq_some_iff, Dict.get?_eq_some_iff]
  exact h.mem_iff

theorem get?_write (locks : Locks) (q : Location) : (write_payload locks).get? q = locks.get? q := get?_reorder ..

theorem get?_erase_all {locks : Locks} {evicted : List Location} {q : Location} (h : q ∉ evicted) :
    (evicted.foldl Dict.erase locks).get? q = locks.get? q := by
  induction evicted generalizing locks with
  | nil => rfl
  | cons p evicted ih =>
    obtain ⟨hp, hrest⟩ := not_or.mp (List.mem_cons.not.mp h)
    rw [List.foldl_cons, ih hrest, Dict.get?_erase, if_neg hp]

/-! ### Acquiring -/

/-- The request for `normalized` overlaps the lease. -/
def Overlaps (request : Request) (normalized : Location) (item : Location × Entry) : Prop :=
  item.1 = normalized ∨ (item.2.kind = .namespace_lock ∧ item.1 <+: normalized) ∨
    (request.kind = .namespace_lock ∧ normalized <+: item.1)

/-- What a granted request does to the live leases. -/
structure Granted (C : CharClass) (world : World) (request : Request) (registry new : Locks) (normalized : Location) : Prop where
  owner : strip C request.owner_id ≠ []
  entry : ∃ entry, new.get? normalized = some entry ∧ entry.owner_id = strip C request.owner_id ∧
    entry.kind = if ((cleanup_expired world registry).get? normalized).any
        (fun entry => entry.owner_id = strip C request.owner_id && entry.kind = .namespace_lock) then .namespace_lock else request.kind
  elsewhere : ∀ q ≠ normalized, new.get? q = (cleanup_expired world registry).get? q
  clear : ∀ item ∈ (cleanup_expired world registry).items, strip C item.2.owner_id ≠ [] →
    strip C item.2.owner_id ≠ strip C request.owner_id → Overlaps request normalized item →
      request.force = true ∧ request.kind = .file_lock ∧ item.1 = normalized ∧ item.2.kind = .file_lock

theorem mem_conflicting {locks : Locks} {request : Request} {normalized : Location} {owner : Text} {item : Location × Entry} :
    item ∈ conflicting_locks C locks normalized owner request.kind ↔
      item ∈ locks.items ∧ strip C item.2.owner_id ≠ [] ∧ strip C item.2.owner_id ≠ owner ∧ Overlaps request normalized item := by
  unfold conflicting_locks Overlaps path_is_within
  rw [List.mem_filter, List.mem_insertionSort]
  simp only [Bool.and_eq_true, Bool.or_eq_true, decide_eq_true_eq, beq_iff_eq, List.isPrefixOf_iff_prefix, or_assoc, and_assoc]

/-- A request is refused and changes nothing, or it is granted. -/
theorem acquire_spec (world : World) (request : Request) (registry : Locks) :
    ((acquire_lock C world request registry).1.success = false ∧ (acquire_lock C world request registry).2 = registry) ∨
      ∃ normalized, request.path = some normalized ∧
        Granted C world request registry (acquire_lock C world request registry).2 normalized := by
  unfold acquire_lock
  cases request.path with
  | none => exact Or.inl ⟨rfl, rfl⟩
  | some normalized =>
    dsimp only
    split
    · exact Or.inl ⟨rfl, rfl⟩
    · rename_i howner
      split
      · exact Or.inl ⟨rfl, rfl⟩
      · rename_i hnot
        refine Or.inr ⟨normalized, rfl, howner, ⟨_, by rw [get?_write, Dict.get?_set_self], rfl, rfl⟩, fun q hq => ?_, ?_⟩
        · rw [get?_write, Dict.get?_set_ne _ _ hq]
          split
          · refine get?_erase_all fun hmem => hq ?_
            obtain ⟨item, hitem, rfl⟩ := List.mem_map.mp hmem
            have hforceable := (List.mem_filter.mp hitem).2
            simp only [Bool.and_eq_true, beq_iff_eq] at hforceable
            exact hforceable.1.2
          · rfl
        · intro item hitem hnonblank hother hoverlaps
          have hconflict := mem_conflicting.mpr ⟨hitem, hnonblank, hother, hoverlaps⟩
          generalize conflicting_locks C _ normalized _ request.kind = conflicts at hnot hconflict
          cases conflicts with
          | nil => cases hconflict
          | cons first rest =>
            have hallowed := Bool.eq_false_iff.mpr (hnot first rest rfl)
            simp only [Bool.or_eq_false_iff, Bool.not_eq_false', decide_eq_false_iff_not, ne_eq, not_not] at hallowed
            have hforceable := List.length_filter_eq_length_iff.mp hallowed.2 item hconflict
            simp only [Bool.and_eq_true, beq_iff_eq, decide_eq_true_eq] at hforceable
            exact ⟨hallowed.1, hforceable.1.1, hforceable.1.2, hforceable.2⟩

theorem Granted.exclusive {world : World} {request : Request} {registry new : Locks} {normalized : Location}
    (h : Granted C world request registry new normalized) (hregistry : Exclusive C registry) : Exclusive C new := by
  have hlive : Exclusive C (cleanup_expired world registry) := hregistry.subset fun item hitem => mem_cleanup hitem
  obtain ⟨entry, hentry, howner, hkind⟩ := h.entry
  have hitems (item : Location × Entry) (hitem : item ∈ new.items) :
      item = (normalized, entry) ∨ (item.1 ≠ normalized ∧ item ∈ (cleanup_expired world registry).items) := by
    have hget := (Dict.get?_eq_some_iff ..).mpr hitem
    by_cases hp : item.1 = normalized
    · rw [hp, hentry] at hget
      exact Or.inl (Prod.ext hp (Option.some.inj hget).symm)
    · rw [h.elsewhere _ hp] at hget
      exact Or.inr ⟨hp, (Dict.get?_eq_some_iff ..).mp hget⟩
  have hbeside (item : Location × Entry) (hitem : item ∈ (cleanup_expired world registry).items) (hp : item.1 ≠ normalized)
      (hother : item.2.owner_id ≠ entry.owner_id) : Apart item (normalized, entry) := by
    obtain ⟨hnonblank, hstripped⟩ := hlive.owned item hitem
    have hnone : ¬Overlaps request normalized item := fun hoverlaps =>
      hp (h.clear item hitem (by rwa [hstripped]) (by rwa [hstripped, ← howner]) hoverlaps).2.2.1
    refine ⟨hp, fun hscope => hnone (Or.inr (Or.inl hscope)), fun hscope => ?_⟩
    obtain ⟨hnamespace, hbelow⟩ := hscope
    rw [hkind] at hnamespace
    split at hnamespace
    · -- The namespace was held before: it was apart from the lease already.
      rename_i hheld
      obtain ⟨old, hold, hsame⟩ := (Option.any_eq_true _ _).mp hheld
      simp only [Bool.and_eq_true, decide_eq_true_eq] at hsame
      have happart := hlive.apart item hitem (normalized, old) ((Dict.get?_eq_some_iff ..).mp hold) (by
        show item.2.owner_id ≠ old.owner_id
        rwa [hsame.1, ← howner])
      exact happart.2.2 ⟨hsame.2, hbelow⟩
    · exact hnone (Or.inr (Or.inr ⟨hnamespace, hbelow⟩))
  constructor
  · intro item hitem
    rcases hitems item hitem with rfl | ⟨-, hitem⟩
    · exact ⟨by rw [howner]; exact h.owner, by rw [howner, strip_strip]⟩
    · exact hlive.owned item hitem
  · intro a ha b hb hother
    rcases hitems a ha with rfl | ⟨hpa, ha⟩
    · rcases hitems b hb with rfl | ⟨hpb, hb⟩
      · exact absurd rfl hother
      · have happart := hbeside b hb hpb hother.symm
        exact ⟨happart.1.symm, happart.2.2, happart.2.1⟩
    · rcases hitems b hb with rfl | ⟨hpb, hb⟩
      · exact hbeside a ha hpa hother
      · exact hlive.apart a ha b hb hother

/-! ### Every transaction -/

theorem drop_exclusive (world : World) (gone : Text → Bool) {registry : Locks} (h : Exclusive C registry) :
    Exclusive C (drop_owners world gone registry).2 :=
  h.subset fun _ hitem => mem_cleanup (List.mem_filter.mp (mem_write.mp hitem)).1

theorem release_subset (world : World) (path : Option Location) (owner_id : Text) (force strict : Bool) (kind : Option LockKind)
    (registry : Locks) : ∀ item ∈ (release_lock C world path owner_id force strict kind registry).2.items, item ∈ registry.items := by
  unfold release_lock
  cases path with
  | none => exact fun _ hitem => hitem
  | some normalized =>
    dsimp only
    split
    · exact fun _ hitem => hitem
    · split
      · split <;> exact fun _ hitem => hitem
      · split
        · exact fun _ hitem => hitem
        · split
          · exact fun _ hitem => hitem
          · exact fun _ hitem => mem_cleanup (List.mem_filter.mp (mem_write.mp hitem)).1

theorem perform_exclusive (world : World) (call : Call) {registry : Locks} (h : Exclusive C registry) :
    Exclusive C (perform C world call registry).2 := by
  cases call with
  | acquire request =>
    rcases acquire_spec world request registry with ⟨-, hsame⟩ | ⟨normalized, -, hgranted⟩
    · show Exclusive C (acquire_lock C world request registry).2
      rwa [hsame]
    · exact hgranted.exclusive h
  | release path owner_id force strict kind => exact h.subset (release_subset world path owner_id force strict kind registry)
  | release_all owner_id =>
    show Exclusive C (release_all_file_locks C world owner_id registry).2
    unfold release_all_file_locks
    dsimp only
    split
    · exact h
    · exact drop_exclusive world _ h
  | release_stale dead_owner_ids =>
    show Exclusive C (release_stale_file_locks C world dead_owner_ids registry).2
    unfold release_stale_file_locks
    dsimp only
    split
    · exact h
    · exact drop_exclusive world _ h
  | list => exact h.subset fun _ hitem => mem_cleanup (mem_write.mp hitem)

theorem run_exclusive (calls : List (World × Call)) {registry : Locks} (h : Exclusive C registry) :
    Exclusive C (run C calls registry) := by
  induction calls generalizing registry with
  | nil => exact h
  | cons call calls ih => exact ih (perform_exclusive call.1 call.2 h)

theorem empty_exclusive : Exclusive C .empty :=
  ⟨fun _ hitem => absurd hitem List.not_mem_nil, fun _ hitem => absurd hitem List.not_mem_nil⟩

/-- **Leases exclude each other** after every sequence of transactions: the live leases of
different owners do not overlap; the next request, refused, changes nothing; granted, it
replaces the lease on its own path only, another owner's only by force and file by file, and
keeps the namespace its owner had there. -/
theorem leases_exclude (C : CharClass) (calls : List (World × Call)) (world : World) :
    (∀ a ∈ (cleanup_expired world (run C calls .empty)).items, ∀ b ∈ (cleanup_expired world (run C calls .empty)).items,
      a.2.owner_id ≠ b.2.owner_id → Apart a b) ∧
    ∀ request,
      let outcome := acquire_lock C world request (run C calls .empty)
      (outcome.1.success = false ∧ outcome.2 = run C calls .empty) ∨
        ∃ path entry, request.path = some path ∧ outcome.2.get? path = some entry ∧ entry.owner_id = strip C request.owner_id ∧
          (∀ q ≠ path, outcome.2.get? q = (cleanup_expired world (run C calls .empty)).get? q) ∧
          ∀ old, (cleanup_expired world (run C calls .empty)).get? path = some old →
            (old.owner_id ≠ entry.owner_id → request.force = true ∧ request.kind = .file_lock ∧ old.kind = .file_lock) ∧
            (old.owner_id = entry.owner_id → old.kind = .namespace_lock → entry.kind = .namespace_lock) := by
  have hkept : Exclusive C (run C calls .empty) := run_exclusive calls empty_exclusive
  have hlive : Exclusive C (cleanup_expired world (run C calls .empty)) := hkept.subset fun item hitem => mem_cleanup hitem
  refine ⟨hlive.apart, fun request => (acquire_spec world request _).imp_right ?_⟩
  rintro ⟨path, hpath, hgranted⟩
  obtain ⟨entry, hentry, howner, hkind⟩ := hgranted.entry
  refine ⟨path, entry, hpath, hentry, howner, hgranted.elsewhere, fun old hold => ⟨fun hother => ?_, fun hsame hnamespace => ?_⟩⟩
  · have hmem := (Dict.get?_eq_some_iff ..).mp hold
    obtain ⟨hnonblank, hstripped⟩ := hlive.owned _ hmem
    obtain ⟨hforce, hfile, -, hold⟩ := hgranted.clear (path, old) hmem (by rwa [hstripped]) (by rwa [hstripped, ← howner]) (Or.inl rfl)
    exact ⟨hforce, hfile, hold⟩
  · rw [hkind, hold, if_pos]
    simp [hsame, howner, hnamespace]

example : (acquire_lock .ascii ⟨1, 2, fun _ => true⟩ { path := some ["a".toList, "b".toList], owner_id := "y".toList, kind := .file_lock, force := true }
    (run .ascii [(⟨0, 1, fun _ => true⟩, .acquire { path := some ["a".toList], owner_id := "x".toList, kind := .namespace_lock })] .empty)).1.success =
      false := by decide +kernel

end LeanFlow.Leases
