import LeanFlow.Transactions.Proof

/-! Installing the libraries a plan asks for.

Requirements are appended to the Lake configuration, Lake resolves them, and a
failure puts the configuration, the manifest and the toolchain back. The controller
then records the new configuration; a configuration written in Lean is a protected
document, so its baseline is read again. No journal is kept. -/
namespace LeanFlow.Libraries
open General Goals Source Transactions

structure Library where
  name : String
  git : String
  rev : String
deriving DecidableEq

/-- A value of a manifest up to `==`: `None` or absent, a string, or another value. -/
inductive Value (ν : Type) where
  | none
  | str (text : String)
  | other (value : ν)
deriving DecidableEq

/-- The values of a package that are compared. -/
structure Package (ν : Type) where
  type : Value ν := .none
  url : Value ν := .none
  rev : Value ν := .none
  dir : Value ν := .none
  subDir : Value ν := .none
deriving DecidableEq

/-- The files of a project Lake reads and may write. -/
structure Layout where
  config : Option Text
  manifest : Option Text
  toolchain : Option Text

/-- The readers of configuration and manifest, and Lake itself. -/
structure Lake (ν : Type) where
  /-- The requirements a configuration declares, with their repositories and revisions. -/
  requirements : String → Text → Except ValueError (Dict String (String × String))
  packages : Text → Except ValueError (Dict String (Package ν))
  dumps : String → Text
  /-- What `lake update` leaves, and whether it succeeds. -/
  update : List String → Layout → Layout × Bool

/-- The calls of an installation that may fail. -/
inductive Step where
  | required
  | entries
  | lock
  | deadline
  | truncate (path : String)
  | write (path : String)
  | mkdir
  | validate_layout
  | event
  | baseline (path : String)
  | close_workers
  | commit (part : StorePart)
  | cleanup (part : StorePart)
deriving DecidableEq

def config_names : List String := ["lakefile.toml", "lakefile.lean"]

def manifest_name : String := "lake-manifest.json"

def toolchain_name : String := "lean-toolchain"

variable {ν : Type} [DecidableEq ν] (C : CharClass) (lake : Lake ν) (fails : Step → Bool)

/-! ### Requirements -/

/-- `_configuration`: the one configuration, its bytes and what it requires. -/
def configuration (files : Dict String Text) :
    Except ValueError (String × Text × Dict String (String × String)) :=
  match config_names.filterMap fun name => (files.get? name).map (name, ·) with
  | [(name, original)] =>
    if 1024 * 1024 < original.length then .error ⟨"Lake configuration exceeds the supported size"⟩
    else (lake.requirements name original).map (name, original, ·)
  | _ => .error ⟨"Expected exactly one regular lakefile.toml or lakefile.lean"⟩

def lock_packages (content : Option Text) : Except ValueError (Dict String (Package ν)) :=
  content.elim (.ok .empty) lake.packages

/-- The requests the configuration does not declare; a declared one must be the same. -/
def additions (known : Dict String (String × String)) : List Library → Except ValueError (List Library)
  | [] => .ok []
  | entry :: entries =>
    match known.get? entry.name with
    | none => (additions known entries).map (entry :: ·)
    | some old =>
      if old = (entry.git, entry.rev) then additions known entries
      else .error ⟨"Cannot replace existing library requirement " ++ entry.name⟩

/-- The lines of one requirement, in either configuration language. -/
def requirement_lines (dumps : String → Text) (name : String) (entry : Library) : List Text :=
  if name = "lakefile.toml" then
    ["[[require]]".toList, "name = ".toList ++ dumps entry.name, "git = ".toList ++ dumps entry.git,
      "rev = ".toList ++ dumps entry.rev, []]
  else
    ["require «".toList ++ entry.name.toList ++ "» from git ".toList ++ dumps entry.git ++ " @ ".toList ++
      dumps entry.rev, []]

def append_requirements (name : String) (original : Text) (entries : List Library) : Text :=
  let newline : Text := if original.tails.any ['\r', '\n'].isPrefixOf then ['\r', '\n'] else ['\n']
  original ++ newline.intercalate ([[], []] ++ entries.flatMap (requirement_lines lake.dumps name))

/-- A request that is locked as it was asked for. -/
def Library.locked (entry : Library) (packages : Dict String (Package ν)) : Bool :=
  (packages.get? entry.name).any fun package =>
    package.type = .str "git" && package.rev = .str entry.rev && package.url = .str entry.git

/-- The locks of the new manifest: the old ones unchanged, and every request as asked for. -/
def check_locks (previous : Dict String (Package ν)) (entries : List Library) (current : Dict String (Package ν)) :
    Except ValueError Unit := do
  previous.items.forM fun item =>
    if (current.get? item.1).getD {} = item.2 then .ok ()
    else .error ⟨"Lake changed the existing locked dependency " ++ item.1⟩
  entries.forM fun entry =>
    if entry.locked current then .ok ()
    else .error ⟨"Lake did not resolve the requested pinned library " ++ entry.name⟩

/-! ### The installation -/

/-- `path.write_bytes`: the file is truncated before it is written. -/
def write_bytes (path : String) (content : Text) : Controller Unit := do
  failing (fails (.truncate path)) .os_error
  Prog.modify (World.writeFile path [])
  failing (fails (.write path)) .os_error
  Prog.modify (World.writeFile path content)

def read_bytes (path : String) : Controller Text := do
  let w ← Prog.get
  match w.disk.files.get? path with
  | none => .raise .os_error
  | some content => return content

def World.layout (name : String) (w : World) : Layout :=
  ⟨w.disk.files.get? name, w.disk.files.get? manifest_name, w.disk.files.get? toolchain_name⟩

def World.setLayout (name : String) (layout : Layout) (w : World) : World :=
  ((w.put name layout.config).put manifest_name layout.manifest).put toolchain_name layout.toolchain

structure Result where
  accepted : Bool
  status : String
  dependency_cache_may_have_changed : Bool := false
deriving DecidableEq

/-- Put one file back. -/
def restore_bytes (path : String) : Option Text → Controller Unit
  | none => Prog.modify (World.unlink path)
  | some content => write_bytes fails path content

/-- The configuration and the manifest Lake starts from. -/
def prepare_update (name : String) (updated : Text) (before : Layout) : Controller Unit := do
  failing (fails .deadline) .os_error
  write_bytes fails name updated
  (if before.manifest = none then
    write_bytes fails manifest_name
      "\x7b\"version\": \"1.1.0\", \"packagesDir\": \".lake/packages\", \"packages\": []\x7d".toList
    else pure ())
  failing (fails .mkdir) .os_error

/-- Let Lake resolve the requirements, and check what it left. -/
def run_update (name : String) (updated : Text) (before : Layout) (previous : Dict String (Package ν))
    (entries : List Library) : Controller Result := do
  let w ← Prog.get
  let (after, success) := lake.update (entries.map (·.name)) (World.layout name w)
  Prog.modify (World.setLayout name after)
  (if success then pure () else .raise (.value_error ⟨"Lake dependency update failed"⟩))
  failing (fails .validate_layout) (.value_error ⟨"Library path escapes the project"⟩)
  let config ← read_bytes name
  let toolchain ← read_bytes toolchain_name
  (if config ≠ updated ∨ some toolchain ≠ before.toolchain then
    .raise (.value_error ⟨"Lake changed protected configuration or the project's Lean toolchain"⟩)
    else pure ())
  let current ← read_bytes manifest_name
  let packages ← checked (lock_packages lake (some current))
  checked (check_locks previous entries packages)
  return { accepted := true, status := "installed" }

/-- The handler of a failed update. -/
def roll_back (name : String) (before : Layout) (update_attempted : Bool) : Controller Result := do
  restore_bytes fails name before.config
  restore_bytes fails manifest_name before.manifest
  restore_bytes fails toolchain_name before.toolchain
  return { accepted := false, status := "rolled_back", dependency_cache_may_have_changed := update_attempted }

/-- The guarded part of `_install_locked`. -/
def attempt_update (name : String) (updated : Text) (before : Layout) (previous : Dict String (Package ν))
    (entries : List Library) : Controller Result := do
  let failed ← Prog.handle (fun _ => some <$> roll_back fails name before false) do
    prepare_update fails name updated before
    return none
  match failed with
  | some result => return result
  | none =>
    Prog.handle (fun _ => roll_back fails name before true)
      (run_update lake fails name updated before previous entries)

def install_locked (entries : List Library) : Controller Result := do
  let w ← Prog.get
  let (name, original, known) ← checked (configuration lake w.disk.files)
  let before := World.layout name w
  (if before.toolchain = none then
    .raise (.value_error ⟨"Pinned project lean-toolchain is required"⟩) else pure ())
  let previous ← checked (lock_packages lake before.manifest)
  let added ← checked (additions known entries)
  if added = [] ∧ entries.all (·.locked previous) then
    return { accepted := true, status := "already_installed" }
  else
    attempt_update lake fails name
      (if added = [] then original else append_requirements lake name original added) before previous entries

def install_libraries (entries : List Library) : Controller Result :=
  Prog.handle (fun _ => return { accepted := false, status := "rejected" }) do
    failing (fails .entries) (.value_error ⟨"Library entries require exactly name, git, and rev"⟩)
    failing (fails .lock) .os_error
    install_locked lake fails entries

/-! ### The controller -/

/-- Record one configuration file that changed; a protected one has its baseline read again. -/
def record_configuration (item : String × Text) : Controller Unit := do
  let content ← read_bytes item.1
  if content = item.2 then return
  else do
    failing (fails (.baseline item.1)) .os_error
    Prog.modify (World.setChanges fun changes => changes ++ [{
      path := some item.1
      status := some "modified"
      agent_id := some "orchestrator" }])
    let w ← Prog.get
    match w.documents.get? item.1 with
    | none => return
    | some document => do
      let text ← read_bytes item.1
      Prog.modify fun w => { w with documents := w.documents.set item.1 { document with baseline := text } }

/-- The files whose contents an installation compares. -/
def World.configured (w : World) : List (String × Text) :=
  (config_names ++ [manifest_name, toolchain_name]).filterMap fun name => (w.disk.files.get? name).map (name, ·)

/-- What a rejected installation raises. -/
def rejected (result : Result) : Raised :=
  if result.status = "configuration_error" then
    .infrastructure "environment_error" "Library installation configuration error"
  else if result.dependency_cache_may_have_changed then
    .infrastructure "environment_error"
      "Dependency resolution failed after changing the package cache; restore the locked environment before resuming"
  else .runtime_error "library installation rejected"

def install_planned_libraries (shown : Node → NodeStatus) (allow_internet installed : Bool)
    (entries : List Library) : Controller Unit :=
  if entries = [] then return
  else if allow_internet = false then failing (fails .required) (.value_error ⟨"required libraries are not installed"⟩)
  else if installed then return
  else do
    let w ← Prog.get
    let before := World.configured w
    let result ← install_libraries lake fails entries
    failing (fails .event) .os_error
    if result.accepted = false then .raise (rejected result)
    else do
      before.forM (record_configuration fails)
      failing (fails .close_workers) .os_error
      assert_sources C
      persist (fun part => fails (.commit part)) shown

/-- Whatever an installation raises, the controller persists before it stops or plans on. -/
def install_step (shown : Node → NodeStatus) (allow_internet installed : Bool) (entries : List Library) :
    Controller Unit :=
  Prog.handle (fun e => do
    persist (fun part => fails (.cleanup part)) shown
    .raise e) (install_planned_libraries C lake fails shown allow_internet installed entries)

end LeanFlow.Libraries
