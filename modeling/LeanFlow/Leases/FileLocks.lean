import LeanFlow.General.Dict
import LeanFlow.Source.Declarations
import Mathlib.Data.Char
import Mathlib.Data.List.Lex
import Mathlib.Data.List.Sort

/-! The registry of file and namespace leases.

A registry maps the canonical path of each lease to its entry. Every operation is one
transaction: it reads the registry, drops the entries that are no longer live, checks, and
writes. What it finds around itself is its `World`: the time, its own process and the
processes that are alive. -/
namespace LeanFlow.Leases
open General Source

/-- A canonical absolute path, by its components. -/
abbrev Location := List Text

def path_text : Location → Text
  | [] => ['/']
  | parts => parts.flatMap ('/' :: ·)

inductive LockKind where
  | file_lock
  | namespace_lock
deriving DecidableEq

structure Entry where
  owner_id : Text
  process_id : Nat
  kind : LockKind
  purpose : Text
  created_at : Option Nat
  updated_at : Nat
  expires_at : Option Nat
deriving DecidableEq

abbrev Locks := Dict Location Entry

structure World where
  now : Nat
  process_id : Nat
  process_seems_alive : Nat → Bool

/-! ### Entries -/

/-- A process-backed lease lasts as long as its process, any other until it expires. -/
def live (world : World) (entry : Entry) : Bool :=
  if 0 < entry.process_id then world.process_seems_alive entry.process_id else entry.expires_at.all (world.now < ·)

def cleanup_expired (world : World) (locks : Locks) : Locks := locks.keep fun item => live world item.2

/-- The namespace itself and what is below it. -/
def path_is_within (path scope : Location) : Bool := scope.isPrefixOf path

def by_path (a b : Location × Entry) : Prop := path_text a.1 ≤ path_text b.1

instance : DecidableRel by_path := fun _ _ => inferInstanceAs (Decidable (_ ≤ _))

/-- The registry as it is written, with its keys sorted. -/
def write_payload (locks : Locks) : Locks := locks.reorder (locks.items.insertionSort by_path) (List.perm_insertionSort ..)

section Operations

variable (C : CharClass)

/-- The leases of other owners that overlap a requested file or namespace. -/
def conflicting_locks (locks : Locks) (normalized : Location) (owner_id : Text) (kind : LockKind) : List (Location × Entry) :=
  (locks.items.insertionSort by_path).filter fun (locked_path, entry) =>
    let current_owner := strip C entry.owner_id
    current_owner ≠ [] && current_owner ≠ owner_id &&
      (locked_path == normalized || (entry.kind = .namespace_lock && path_is_within normalized locked_path) ||
        (kind = .namespace_lock && path_is_within locked_path normalized))

structure Request where
  /-- What the requested path resolves to; none for an empty path. -/
  path : Option Location
  owner_id : Text
  purpose : Text := []
  ttl_seconds : Int := 1800
  force : Bool := false
  kind : LockKind

inductive Reply where
  | failed (error : String) (lock : Option (Location × Entry))
  | acquired (path : Location) (owner_id : Text) (kind : LockKind) (purpose : Text) (expires_at : Nat) (evicted : List Location)
  | released (path : Location) (released : Bool)
  | dropped (released : List Location)
deriving DecidableEq

def Reply.success : Reply → Bool
  | failed .. => false
  | _ => true

def ttl (seconds : Int) : Nat := (max 60 (if seconds = 0 then 1800 else seconds)).toNat

def LockKind.noun : LockKind → String
  | file_lock => "File"
  | namespace_lock => "Namespace"

def acquire_lock (world : World) (request : Request) (registry : Locks) : Reply × Locks :=
  match request.path with
  | none => (.failed "path required" none, registry)
  | some normalized =>
    let owner := strip C request.owner_id
    if owner = [] then (.failed "owner_id required" none, registry)
    else
      let expires_at := world.now + ttl request.ttl_seconds
      let locks := cleanup_expired world registry
      let current := locks.get? normalized
      let conflicts := conflicting_locks C locks normalized owner request.kind
      let forceable_conflicts := conflicts.filter fun (conflict_path, conflict) =>
        request.kind = .file_lock && conflict_path == normalized && conflict.kind = .file_lock
      match conflicts, !request.force || forceable_conflicts.length ≠ conflicts.length with
      | conflict :: _, true =>
        (.failed (request.kind.noun ++ " is locked by " ++ String.ofList conflict.2.owner_id) (some conflict), registry)
      | _, _ =>
        let evicted := forceable_conflicts.map Prod.fst
        let locks := if request.force then evicted.foldl Dict.erase locks else locks
        -- A file request on one's own namespace keeps the namespace.
        let stored_kind :=
          if current.any (fun entry => entry.owner_id = owner && entry.kind = .namespace_lock) then .namespace_lock else request.kind
        let entry : Entry :=
          { owner_id := owner, process_id := world.process_id, kind := stored_kind, purpose := strip C request.purpose,
            created_at := some ((current.bind Entry.created_at).getD world.now), updated_at := world.now,
            expires_at := some expires_at }
        (.acquired normalized owner stored_kind (strip C request.purpose) expires_at (if request.force then evicted else []),
          write_payload (locks.set normalized entry))

def LockKind.word : LockKind → String
  | file_lock => "file"
  | namespace_lock => "namespace"

def release_lock (world : World) (path : Option Location) (owner_id : Text) (force strict : Bool) (expected_kind : Option LockKind)
    (registry : Locks) : Reply × Locks :=
  match path with
  | none => (.failed "path required" none, registry)
  | some normalized =>
    let owner := strip C owner_id
    if owner = [] && !force then (.failed "owner_id required" none, registry)
    else
      let locks := cleanup_expired world registry
      match locks.get? normalized with
      | none =>
        if strict then (.failed ("Strict lease is missing at " ++ String.ofList (path_text normalized)) none, registry)
        else (.released normalized false, registry)
      | some current =>
        match expected_kind.filter (· ≠ current.kind) with
        | some kind => (.failed ("Path holds a " ++ current.kind.word ++ " lock, not a " ++ kind.word ++ " lock") none, registry)
        | none =>
          if current.owner_id ≠ [] && current.owner_id ≠ owner && !force then
            (.failed ("File is locked by " ++ String.ofList current.owner_id) none, registry)
          else (.released normalized true, write_payload (locks.erase normalized))

/-- The live leases without those of the owners `gone`. -/
def drop_owners (world : World) (gone : Text → Bool) (registry : Locks) : Reply × Locks :=
  let locks := cleanup_expired world registry
  (.dropped ((locks.items.filter fun item => gone item.2.owner_id).map Prod.fst), write_payload (locks.keep fun item => !gone item.2.owner_id))

def release_all_file_locks (world : World) (owner_id : Text) (registry : Locks) : Reply × Locks :=
  let owner := strip C owner_id
  if owner = [] then (.failed "owner_id required" none, registry) else drop_owners world (· == owner) registry

def release_stale_file_locks (world : World) (dead_owner_ids : List Text) (registry : Locks) : Reply × Locks :=
  let dead := (dead_owner_ids.map (strip C)).filter (· ≠ [])
  if dead = [] then (.dropped [], registry) else drop_owners world (dead.contains ·) registry

/-- Listing leases, or describing one, writes back what is live. -/
def list_file_locks (world : World) (registry : Locks) : Reply × Locks := (.dropped [], write_payload (cleanup_expired world registry))

inductive Call where
  | acquire (request : Request)
  | release (path : Option Location) (owner_id : Text) (force strict : Bool) (expected_kind : Option LockKind)
  | release_all (owner_id : Text)
  | release_stale (dead_owner_ids : List Text)
  | list

/-- One transaction. -/
def perform (world : World) : Call → Locks → Reply × Locks
  | .acquire request => acquire_lock C world request
  | .release path owner_id force strict expected_kind => release_lock C world path owner_id force strict expected_kind
  | .release_all owner_id => release_all_file_locks C world owner_id
  | .release_stale dead_owner_ids => release_stale_file_locks C world dead_owner_ids
  | .list => list_file_locks world

/-- The registry after a sequence of transactions. -/
def run (calls : List (World × Call)) (registry : Locks) : Locks :=
  calls.foldl (fun registry (world, call) => (perform C world call registry).2) registry

end Operations

end LeanFlow.Leases
