import LeanFlow.Leases.FileLocks
import Mathlib.Data.Rat.Defs
import Mathlib.Algebra.Order.Ring.Rat

/-! Managed storage: the entries below the storage home, their leases and their protections.

An entry is a directory with a marker that says what it is. The paths of entries are
relative to the home. What is found on disk and of the processes at one moment is a
`World`; the storage lock keeps other transactions out, but processes end and files fail
between two looks. -/
namespace LeanFlow.Storage
open General Source Leases

/-- A scalar of a decoded document, or a list or an object in it. -/
inductive Value where
  | null
  | bool (value : Bool)
  | int (value : Int)
  /-- `none` is a float that is not finite. -/
  | float (value : Option ℚ)
  | str (value : Text)
  | other
deriving DecidableEq

abbrev Payload := Dict String Value

/-- `payload.get(name)` -/
def field (payload : Payload) (name : String) : Value := (payload.get? name).getD .null

/-- What `os.kill(pid, 0)` does. -/
inductive Kill where
  | delivered
  | no_such_process
  | refused
deriving DecidableEq

/-- A file of a lease directory. -/
inductive LeaseFile where
  | irregular
  | unreadable
  /-- The object it holds, if it is one, and whether it can be unlinked. -/
  | record (payload : Option Payload) (unlinks : Bool)

inductive LeaseDirectory where
  | linked
  | missing
  | files (files : List LeaseFile)

structure World where
  home : Location
  now : ℚ
  is_symlink : Location → Bool
  is_dir : Location → Bool
  children : Location → List Text
  /-- The object in an entry's marker, where it is readable and holds one. -/
  marker : Location → Option Payload
  leases : Location → LeaseDirectory
  kill : Int → Kill
  process_start : Int → Option Text
  /-- The installations in use, where they can be told. -/
  installed : Option (List Location)
  /-- A live process uses the directory, or the process inventory is incomplete. -/
  uses : Location → Bool
  /-- The allocated bytes, where they can be measured and recorded. -/
  measure : Location → Option Nat
  /-- The directory can be removed. -/
  removes : Location → Bool

variable (world : World)

/-! ### Leases -/

/-- The owner is alive, or it cannot be told. -/
def owner_active (pid start : Value) : Bool :=
  match pid, start with
  | .int pid, .str expected =>
    if pid ≤ 1 ∨ expected = [] then true
    else match world.kill pid with
      | .no_such_process => false
      | .refused => true
      | .delivered => (world.process_start pid).all (· = expected)
  | _, _ => true

def lease_active : Option Payload → Bool
  | none => true
  | some payload => owner_active world (field payload "pid") (field payload "process_start")

def managed (entry : Location) : Bool :=
  (4 ≤ entry.length ∧ (entry.take 3 = ["cache".toList, "dependencies".toList, "v1".toList] ∨
    entry.take 3 = ["cache".toList, "project-builds".toList, "v1".toList])) ∨
  (2 ≤ entry.length ∧ (entry.head? = some "runtimes".toList ∨ entry.head? = some "releases".toList))

/-- A path of a managed parent with no link on the way to it. -/
def confined_path (entry : Location) : Bool :=
  managed entry && !entry.contains "..".toList && !(entry.inits.drop 1).any world.is_symlink

/-- A stale lease is discarded, which may fail. -/
def inspect_lease (active : Bool) : LeaseFile → Option Bool
  | .irregular | .unreadable => some true
  | .record payload unlinks =>
    if lease_active world payload then some true
    else if unlinks then some active
    else none

/-- `none` where it raises. -/
def entry_is_leased (entry : Location) : Option Bool :=
  if confined_path world entry then
    match world.leases entry with
    | .linked => none
    | .missing => some false
    | .files files => files.foldlM (inspect_lease world) false
  else none

/-! ### Entries -/

inductive Kind where
  | dependency
  | project_build
  | staging
  | runtime
  | runtime_release
deriving DecidableEq

/-- The cache entries are those that are not swept in any case. -/
def Kind.cache : Kind → Bool
  | .dependency | .project_build => true
  | .staging | .runtime | .runtime_release => false

def hexadecimal (c : Char) : Bool := ('0' ≤ c ∧ c ≤ '9') ∨ ('a' ≤ c ∧ c ≤ 'f')

/-- The kind that the marker claims, where its place and name allow it. -/
def entry_kind (entry : Location) (kind : Value) : Option Kind :=
  match entry with
  | [cache, parent, version, name] =>
    if cache = "cache".toList ∧ (parent = "dependencies".toList ∨ parent = "project-builds".toList) ∧ version = "v1".toList then
      if kind = .str (if parent = "dependencies".toList then "dependency".toList else "project-build".toList) ∧
          name.length = 64 ∧ name.all hexadecimal then
        some (if parent = "dependencies".toList then .dependency else .project_build)
      else if kind = .str "staging".toList ∧ ".staging-".toList.isPrefixOf name then some .staging
      else none
    else none
  | [parent, _] =>
    if parent = "runtimes".toList ∧ kind = .str "runtime".toList then some .runtime
    else if parent = "releases".toList ∧ kind = .str "runtime-release".toList then some .runtime_release
    else none
  | _ => none

/-- A finite number that is no boolean. -/
def Value.number : Value → Option ℚ
  | .int value => some value
  | .float value => value
  | _ => none

/-- `value == 1` -/
def Value.is_one : Value → Bool
  | .int value => value = 1
  | .float value => value = some 1
  | .bool value => value
  | _ => false

def timestamp (value : Value) : Option ℚ := value.number.filter fun time => 0 ≤ time ∧ time ≤ world.now + 60

/-- A marked entry, its kind and last use read out. -/
structure Marked where
  kind : Kind
  last_used : ℚ
  payload : Payload

def read_entry (entry : Location) : Option Marked :=
  if confined_path world entry ∧ !world.is_symlink (entry ++ [".leanflow-storage.json".toList]) ∧ world.is_dir entry then do
    let payload ← world.marker entry
    if (field payload "schema_version").is_one ∧ entry.getLast?.map Value.str = some (field payload "key") then
      let kind ← entry_kind entry (field payload "kind")
      let _ ← timestamp world (field payload "created_at")
      let last_used ← timestamp world (field payload "last_used")
      some ⟨kind, last_used, payload⟩
    else none
  else none

def managed_parents : List Location :=
  [["cache".toList, "dependencies".toList, "v1".toList], ["cache".toList, "project-builds".toList, "v1".toList],
    ["runtimes".toList], ["releases".toList]]

def managed_candidates : List Location :=
  managed_parents.flatMap fun parent =>
    if (parent.inits.drop 1).any world.is_symlink ∨ !world.is_dir parent then []
    else (world.children parent).map fun name => parent ++ [name]

def unfinished_install_active (payload : Payload) : Bool :=
  if payload.get? "ready" = some (.bool false) then
    owner_active world (field payload "installer_pid") (field payload "installer_process_start")
  else false

def recorded_entry_size (entry : Location) (payload : Payload) : Option Nat :=
  match field payload "bytes" with
  | .int stored => if 0 ≤ stored then some stored.toNat else world.measure entry
  | _ => world.measure entry

/-! ### The inventory -/

structure Details where
  path : Location
  kind : Kind
  bytes : Nat
  last_used : ℚ
  protected_ : Bool
  protection : String
deriving DecidableEq

structure Inventory where
  entries : List Details := []
  unknown : List Location := []
  active_sources : List Location := []

/-- Why an entry is kept; empty where nothing keeps it, and `none` where its lease cannot be read. -/
def protection (entry : Location) (marked : Marked) : Option String :=
  let runtime := marked.kind = .runtime ∨ marked.kind = .runtime_release
  (entry_is_leased world entry).map fun leased =>
    if leased then "active or unverifiable lease"
    else if runtime ∧ world.installed = none then "unverifiable installation metadata"
    else if runtime ∧ (world.installed.getD []).any fun path => path_is_within path (world.home ++ entry) then
      "current installation or process"
    else if unfinished_install_active world marked.payload then "active or unverifiable installer"
    else if runtime ∧ world.uses entry then "live child process or unverifiable process inventory"
    else ""

/-- The components of an absolute path. Two leading slashes make another root. -/
def absolute_path (text : Text) : Option Location :=
  let leading := (text.takeWhile (· = '/')).length
  if leading = 0 ∨ leading = 2 then none
  else some ((text.splitOn '/').filter fun part => part ≠ [] ∧ part ≠ ['.'])

/-- The release a runtime was installed from. -/
def source_root (marked : Marked) : Option Location :=
  match field marked.payload "source_root" with
  | .str source => absolute_path source
  | _ => none

def survey (found : Inventory) (entry : Location) : Inventory :=
  match read_entry world entry with
  | none => { found with unknown := found.unknown ++ [entry] }
  | some marked =>
    match protection world entry marked with
    | none => { found with unknown := found.unknown ++ [entry] }
    | some reason =>
      let found := if marked.kind = .runtime ∧ reason ≠ "" then
        { found with active_sources := found.active_sources ++ (source_root marked).toList } else found
      match recorded_entry_size world entry marked.payload with
      | none => { found with unknown := found.unknown ++ [entry] }
      | some bytes =>
        { found with entries := found.entries ++ [⟨entry, marked.kind, bytes, marked.last_used, reason ≠ "", reason⟩] }

/-- The release of a kept runtime is kept. -/
def pin_source (active_sources : List Location) (details : Details) : Details :=
  if details.kind = .runtime_release ∧ active_sources.any fun path => path_is_within path (world.home ++ details.path) then
    { details with protected_ := true, protection := "source of an active runtime" }
  else details

def inventory : List Details × List Location :=
  let found := (managed_candidates world).foldl (survey world) {}
  (found.entries.map (pin_source world found.active_sources), found.unknown)

end LeanFlow.Storage
