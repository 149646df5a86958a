import LeanFlow.Libraries.Install
import LeanFlow.General.Except

/-! One serialized installation, and its rollback.

The update is a process of its own: whatever it does to the three protected paths, by new
contents, by deleting them or by putting a link there, it is checked afterwards, and a
refused update has every path put back. What the checks let through is the question
(`install_sound`): a package of the old manifest without any of the five compared values
compares equal to one that is not there. -/
namespace LeanFlow.Libraries.Rollback
open General Goals Source

abbrev Bytes := List UInt8

/-- What is at a path; a link with the content of its target. -/
inductive Entry where
  | absent
  | file (content : Bytes)
  | link (content : Option Bytes)
deriving DecidableEq

namespace Entry

def read_bytes : Entry → Option Bytes
  | absent => none
  | file content => some content
  | link content => content

def is_symlink : Entry → Bool
  | link _ => true
  | absent | file _ => false

/-- A write goes through a link. -/
def write_bytes (content : Bytes) : Entry → Entry
  | link _ => link (some content)
  | absent | file _ => file content

end Entry

abbrev Root := String → Entry

def Root.set (root : Root) (path : String) (entry : Entry) : Root := fun p => if p = path then entry else root p

/-- The readers of configuration and manifest. A manifest is `none` where it has no list
of packages, and so is a package without a name. -/
structure Reader (ν : Type) where
  requirements : String → Bytes → Except ValueError (Dict String (String × String))
  loads : Bytes → Except ValueError (Option (List (Option (String × Package ν))))
  dumps : String → Text

variable {ν : Type} [DecidableEq ν] (reader : Reader ν)

/-! ### Before the update -/

def configuration (root : Root) : Except ValueError (String × Bytes × Dict String (String × String)) :=
  match config_names.filter fun name => (root name).read_bytes.isSome with
  | [name] =>
    match root name with
    | .file original =>
      if 1024 * 1024 < original.length then .error ⟨"Lake configuration exceeds the supported size"⟩
      else (reader.requirements name original).map (name, original, ·)
    | _ => .error ⟨"Expected exactly one regular lakefile.toml or lakefile.lean"⟩
  | _ => .error ⟨"Expected exactly one regular lakefile.toml or lakefile.lean"⟩

def add_package (result : Dict String (Package ν)) : Option (String × Package ν) → Except ValueError (Dict String (Package ν))
  | none => .error ⟨"Invalid Lake manifest package entry"⟩
  | some (name, package) =>
    if (result.get? name).isSome then .error ⟨"Duplicate Lake manifest package names"⟩ else .ok (result.set name package)

def lock_packages : Option Bytes → Except ValueError (Dict String (Package ν))
  | none => .ok .empty
  | some content =>
    match reader.loads content with
    | .error e => .error e
    | .ok none => .error ⟨"Invalid Lake manifest package list"⟩
    | .ok (some packages) => packages.foldlM add_package .empty

def append_requirements (name : String) (original : Bytes) (entries : List Library) : Bytes :=
  let newline : Text := if original.tails.any [13, 10].isPrefixOf then ['\r', '\n'] else ['\n']
  original ++ (newline.intercalate ([[], []] ++ entries.flatMap (requirement_lines reader.dumps name))).flatMap String.utf8EncodeChar

/-- What the update starts from. -/
structure Plan (ν : Type) where
  name : String
  original : Bytes
  updated : Bytes
  manifest : Option Bytes
  toolchain : Bytes
  previous : Dict String (Package ν)

/-- The plan of an update; `none` where every library is installed already. -/
def prepare (root : Root) (entries : List Library) : Except ValueError (Option (Plan ν)) := do
  let (name, original, known) ← configuration reader root
  match root manifest_name, root toolchain_name with
  | .link _, _ => .error ⟨"Library configuration cannot be a symlink: lake-manifest.json"⟩
  | _, .link _ => .error ⟨"Library configuration cannot be a symlink: lean-toolchain"⟩
  | _, .absent => .error ⟨"Pinned project lean-toolchain is required"⟩
  | manifest, .file toolchain => do
    let previous ← lock_packages reader manifest.read_bytes
    let added ← additions known entries
    if added = [] ∧ entries.all (·.locked previous) then .ok none
    else .ok (some ⟨name, original, if added = [] then original else append_requirements reader name original added,
      manifest.read_bytes, toolchain, previous⟩)

/-! ### The update and its checks -/

/-- What `lake update` leaves. -/
structure Update where
  lakefile : Entry
  manifest : Entry
  toolchain : Entry
  success : Bool
  layout_valid : Bool

/-- What an attempt meets: an exception before the update, with what it left at the
configuration and at the manifest, or the update. -/
inductive Attempt where
  | stopped (lakefile manifest : Entry)
  | updated (update : Update)

/-- The locks of the manifest that the update left, where it passes every check. -/
def check_update (plan : Plan ν) (entries : List Library) (update : Update) : Except ValueError (Dict String (Package ν)) := do
  if !update.success then .error ⟨"Lake dependency update failed"⟩
  else if !update.layout_valid then .error ⟨"Library path escapes the project"⟩
  else if update.lakefile.is_symlink || update.manifest.is_symlink || update.toolchain.is_symlink then
    .error ⟨"Lake replaced a configuration file with a symlink"⟩
  else if update.lakefile.read_bytes ≠ some plan.updated ∨ update.toolchain.read_bytes ≠ some plan.toolchain then
    .error ⟨"Lake changed protected configuration or the project's Lean toolchain"⟩
  else
    match update.manifest.read_bytes with
    | none => .error ⟨"No such file or directory"⟩
    | some content => do
      let current ← lock_packages reader (some content)
      check_locks plan.previous entries current
      return current

/-- A link is removed before anything is written. -/
def restore (content : Option Bytes) (entry : Entry) : Entry :=
  let cleared := if entry.is_symlink then .absent else entry
  match content with
  | none => .absent
  | some content => cleared.write_bytes content

def roll_back (plan : Plan ν) (attempted : Bool) (root : Root) : Except ValueError Result × Root :=
  (.ok { accepted := false, status := "rolled_back", dependency_cache_may_have_changed := attempted },
    ((root.set plan.name (restore (some plan.original) (root plan.name))).set
      manifest_name (restore plan.manifest (root manifest_name))).set
        toolchain_name (restore (some plan.toolchain) (root toolchain_name)))

def install_locked (entries : List Library) (attempt : Attempt) (root : Root) : Except ValueError Result × Root :=
  match prepare reader root entries with
  | .error e => (.error e, root)
  | .ok none => (.ok { accepted := true, status := "already_installed" }, root)
  | .ok (some plan) =>
    match attempt with
    | .stopped lakefile manifest => roll_back plan false ((root.set plan.name lakefile).set manifest_name manifest)
    | .updated update =>
      let after := ((root.set plan.name update.lakefile).set manifest_name update.manifest).set toolchain_name update.toolchain
      match check_update reader plan entries update with
      | .error _ => roll_back plan true after
      | .ok _ => (.ok { accepted := true, status := "installed" }, after)

/-! ### What is accepted, and what is put back -/

/-- Every check of an accepted installation, as it was meant. -/
structure Accepted (entries : List Library) (root after : Root) : Prop where
  config : ∃ name original added, name ∈ config_names ∧ root name = .file original ∧ after name = .file (original ++ added)
  toolchain : after toolchain_name = root toolchain_name
  locks : ∃ previous current, lock_packages reader (root manifest_name).read_bytes = .ok previous ∧
    lock_packages reader (after manifest_name).read_bytes = .ok current ∧
      (∀ name package, previous.get? name = some package → current.get? name = some package) ∧
        ∀ entry ∈ entries, entry.locked current = true

/-- The installation is accepted with everything kept, or nothing has changed. -/
def Sound (entries : List Library) (root : Root) (outcome : Except ValueError Result × Root) : Prop :=
  match outcome.1 with
  | .ok report => if report.accepted then Accepted reader entries root outcome.2 else outcome.2 = root
  | .error _ => outcome.2 = root

/-- The condition: a manifest that passes the checks names every old package that has none
of the five values. -/
def Named (entries : List Library) (attempt : Attempt) (root : Root) : Prop :=
  ∀ plan update current, prepare reader root entries = .ok (some plan) → attempt = .updated update →
    check_update reader plan entries update = .ok current →
      ∀ name, plan.previous.get? name = some {} → current.get? name ≠ none

/-! ### The rollback -/

theorem restore_file (content : Bytes) (entry : Entry) : restore (some content) entry = .file content := by
  cases entry <;> rfl

/-- The plan is read off the protected paths. -/
structure Plan.Of (plan : Plan ν) (root : Root) : Prop where
  name : plan.name ∈ config_names
  config : root plan.name = .file plan.original
  updated : ∃ added, plan.updated = plan.original ++ added
  manifest : root manifest_name = plan.manifest.elim .absent .file
  toolchain : root toolchain_name = .file plan.toolchain
  previous : lock_packages reader plan.manifest = .ok plan.previous

omit [DecidableEq ν] in
theorem configuration_spec {root : Root} {name : String} {original : Bytes} {known : Dict String (String × String)}
    (h : configuration reader root = .ok (name, original, known)) : name ∈ config_names ∧ root name = .file original := by
  unfold configuration at h
  split at h
  · rename_i only honly
    have hname : only ∈ config_names := (List.mem_filter.mp (honly ▸ List.mem_singleton_self only)).1
    split at h
    · rename_i content hcontent
      split at h
      · cases h
      · cases hreq : reader.requirements only content with
        | error e => simp [hreq, Except.map] at h
        | ok declared =>
          simp only [hreq, Except.map, Except.ok.injEq, Prod.mk.injEq] at h
          obtain ⟨rfl, rfl, -⟩ := h
          exact ⟨hname, hcontent⟩
    · cases h
  · cases h

omit [DecidableEq ν] in
theorem prefix_append_requirements (name : String) (original : Bytes) (entries : List Library) :
    ∃ added, append_requirements reader name original entries = original ++ added := ⟨_, rfl⟩

theorem prepare_spec {root : Root} {entries : List Library} {decision : Option (Plan ν)}
    (h : prepare reader root entries = .ok decision) :
    match decision with
    | some plan => plan.Of reader root
    | none => (∃ name original, name ∈ config_names ∧ root name = .file original) ∧
        ∃ previous, lock_packages reader (root manifest_name).read_bytes = .ok previous ∧
          ∀ entry ∈ entries, entry.locked previous = true := by
  unfold prepare at h
  obtain ⟨⟨name, original, known⟩, hconfig, h⟩ := bind_eq_ok.mp h
  obtain ⟨hname, hfile⟩ := configuration_spec reader hconfig
  dsimp only at h
  split at h
  · cases h
  · cases h
  · cases h
  · rename_i toolchain htoolchain hlink
    obtain ⟨previous, hprevious, h⟩ := bind_eq_ok.mp h
    obtain ⟨added, hadded, h⟩ := bind_eq_ok.mp h
    split at h
    · rename_i hall
      obtain rfl := Except.ok.inj h
      exact ⟨⟨name, original, hname, hfile⟩, previous, hprevious, List.all_eq_true.mp hall.2⟩
    · obtain rfl := Except.ok.inj h
      refine ⟨hname, hfile, ?_, ?_, htoolchain, hprevious⟩
      · dsimp only
        split
        · exact ⟨[], (List.append_nil _).symm⟩
        · exact prefix_append_requirements ..
      · cases hmanifest : root manifest_name with
        | absent => rfl
        | file content => rfl
        | link content => exact absurd hmanifest (hlink content)

omit [DecidableEq ν] in
theorem roll_back_spec {plan : Plan ν} {root after : Root} (hplan : plan.Of reader root)
    (helse : ∀ path, path ≠ plan.name → path ≠ manifest_name → path ≠ toolchain_name → after path = root path)
    (attempted : Bool) : (roll_back plan attempted after).2 = root := by
  funext path
  simp only [roll_back, Root.set]
  split
  · rename_i h
    rw [restore_file, h, hplan.toolchain]
  · rename_i htoolchain
    split
    · rename_i h
      rw [h, hplan.manifest]
      cases plan.manifest with
      | none => rfl
      | some content => exact restore_file content _
    · rename_i hmanifest
      split
      · rename_i h
        rw [restore_file, h, hplan.config]
      · rename_i hname
        exact helse path hname hmanifest htoolchain

theorem sound_accepted (entries : List Library) (root after : Root) (status : String) :
    Sound reader entries root (.ok { accepted := true, status := status }, after) ↔ Accepted reader entries root after := by
  simp [Sound]

theorem sound_roll_back {plan : Plan ν} {attempted : Bool} {root after : Root} (entries : List Library)
    (h : (roll_back plan attempted after).2 = root) : Sound reader entries root (roll_back plan attempted after) := by
  have hrejected : Sound reader entries root (roll_back plan attempted after) ↔ (roll_back plan attempted after).2 = root := by
    simp only [Sound, roll_back, Bool.false_eq_true, if_false]
  exact hrejected.mpr h

/-! ### The checks -/

theorem check_locks_spec {previous current : Dict String (Package ν)} {entries : List Library}
    (h : check_locks previous entries current = .ok ()) :
    (∀ name package, previous.get? name = some package → (current.get? name).getD {} = package) ∧
      ∀ entry ∈ entries, entry.locked current = true := by
  obtain ⟨⟨⟩, hkept, hlocked⟩ := bind_eq_ok.mp h
  refine ⟨fun name package hpackage => ?_, fun entry hentry => ?_⟩
  · have hitem := forM_eq_ok.mp hkept (name, package) ((Dict.get?_eq_some_iff ..).mp hpackage)
    split at hitem
    · assumption
    · cases hitem
  · have hitem := forM_eq_ok.mp hlocked entry hentry
    split at hitem
    · assumption
    · cases hitem

theorem check_update_spec {plan : Plan ν} {entries : List Library} {update : Update} {current : Dict String (Package ν)}
    (h : check_update reader plan entries update = .ok current) :
    update.lakefile = .file plan.updated ∧ update.toolchain = .file plan.toolchain ∧
      lock_packages reader update.manifest.read_bytes = .ok current ∧ check_locks plan.previous entries current = .ok () := by
  unfold check_update at h
  split at h
  · cases h
  · split at h
    · cases h
    · split at h
      · cases h
      · rename_i hlinks
        split at h
        · cases h
        · rename_i hsame
          split at h
          · cases h
          · rename_i content hcontent
            obtain ⟨packages, hpackages, h⟩ := bind_eq_ok.mp h
            obtain ⟨⟨⟩, hlocks, h⟩ := bind_eq_ok.mp h
            obtain rfl := Except.ok.inj h
            simp only [Bool.or_eq_true, not_or, Bool.not_eq_true] at hlinks
            obtain ⟨hconfig, htoolchain⟩ := not_or.mp hsame
            have hfile (entry : Entry) (content : Bytes) (hlink : entry.is_symlink = false)
                (hread : entry.read_bytes = some content) : entry = .file content := by
              cases entry with
              | absent => cases hread
              | file old => exact congrArg Entry.file (Option.some.inj hread)
              | link old => cases hlink
            exact ⟨hfile _ _ hlinks.1.1 (not_not.mp hconfig), hfile _ _ hlinks.2 (not_not.mp htoolchain),
              hcontent ▸ hpackages, hlocks⟩

/-- An old package that compares equal is kept, unless it has nothing to compare. -/
theorem kept_iff {previous current : Dict String (Package ν)} {entries : List Library}
    (h : check_locks previous entries current = .ok ()) :
    (∀ name package, previous.get? name = some package → current.get? name = some package) ↔
      ∀ name, previous.get? name = some {} → current.get? name ≠ none := by
  constructor
  · intro hkept name hname hnone
    cases hnone.symm.trans (hkept name _ hname)
  · intro hnamed name package hpackage
    have hsame := (check_locks_spec h).1 name package hpackage
    cases hcurrent : current.get? name with
    | some new => rw [← hsame, hcurrent, Option.getD_some]
    | none =>
      rw [hcurrent, Option.getD_none] at hsame
      subst hsame
      exact absurd hcurrent (hnamed name hpackage)

/-- **An installation is accepted with everything kept, or nothing has changed**, whatever
the update did to the protected paths, exactly where the manifest it left, if it passes
the checks, names every old package that has nothing to compare. -/
theorem install_sound (entries : List Library) (attempt : Attempt) (root : Root) :
    Sound reader entries root (install_locked reader entries attempt root) ↔ Named reader entries attempt root := by
  cases hprepare : prepare reader root entries with
  | error e =>
    refine iff_of_true ?_ fun plan _ _ hplan => ?_
    · simp [Sound, install_locked, hprepare]
    · cases hprepare.symm.trans hplan
  | ok decision =>
    cases decision with
    | none =>
      obtain ⟨⟨name, original, hname, hfile⟩, previous, hprevious, hlocked⟩ := prepare_spec reader hprepare
      refine iff_of_true ?_ fun plan _ _ hplan => ?_
      · have haccepted : Accepted reader entries root root :=
          ⟨⟨name, original, [], hname, hfile, by rwa [List.append_nil]⟩, rfl, previous, previous, hprevious, hprevious,
            fun _ _ h => h, hlocked⟩
        simpa [Sound, install_locked, hprepare] using haccepted
      · cases hprepare.symm.trans hplan
    | some plan =>
      have hplan : plan.Of reader root := prepare_spec reader hprepare
      cases attempt with
      | stopped lakefile manifest =>
        refine iff_of_true ?_ fun _ _ _ _ hupdate => (by cases hupdate)
        simp only [install_locked, hprepare]
        exact sound_roll_back reader entries
          (roll_back_spec reader hplan (fun path hname hmanifest _ => by simp [Root.set, hname, hmanifest]) false)
      | updated update =>
        have helse (path : String) (hname : path ≠ plan.name) (hmanifest : path ≠ manifest_name) (htoolchain : path ≠ toolchain_name) :
            (((root.set plan.name update.lakefile).set manifest_name update.manifest).set toolchain_name update.toolchain) path =
              root path := by simp [Root.set, hname, hmanifest, htoolchain]
        cases hcheck : check_update reader plan entries update with
        | error e =>
          refine iff_of_true ?_ fun plan' update' current hplan' hupdate hcurrent => ?_
          · simp only [install_locked, hprepare, hcheck]
            exact sound_roll_back reader entries (roll_back_spec reader hplan helse true)
          · cases hprepare.symm.trans hplan'
            cases hupdate
            cases hcheck.symm.trans hcurrent
        | ok current =>
          obtain ⟨hconfig, htoolchain, hcurrent, hlocks⟩ := check_update_spec reader hcheck
          obtain ⟨hkept, hlocked⟩ := check_locks_spec hlocks
          have hmanifest : plan.manifest = (root manifest_name).read_bytes := by
            rw [hplan.manifest]
            cases plan.manifest <;> rfl
          have hnames : plan.name ≠ manifest_name ∧ plan.name ≠ toolchain_name := by
            have hmem := hplan.name
            simp only [config_names, List.mem_cons, List.not_mem_nil, or_false] at hmem
            rcases hmem with h | h <;> rw [h] <;> decide
          have haccepted : Accepted reader entries root
                (((root.set plan.name update.lakefile).set manifest_name update.manifest).set toolchain_name update.toolchain) ↔
              ∀ name, plan.previous.get? name = some {} → current.get? name ≠ none := by
            rw [← kept_iff hlocks]
            constructor
            · rintro ⟨-, -, old, new, hold, hnew, hall, -⟩
              rw [← hmanifest, hplan.previous] at hold
              have hafter : lock_packages reader update.manifest.read_bytes = .ok new := by
                simpa [Root.set, show manifest_name ≠ toolchain_name by decide] using hnew
              obtain rfl := Except.ok.inj hold
              obtain rfl := Except.ok.inj (hcurrent.symm.trans hafter)
              exact hall
            · intro hall
              obtain ⟨added, hadded⟩ := hplan.updated
              refine ⟨⟨plan.name, plan.original, added, hplan.name, hplan.config, ?_⟩, ?_, plan.previous, current, ?_, ?_, hall, hlocked⟩
              · simp [Root.set, hnames, hconfig, hadded]
              · simp [Root.set, htoolchain, hplan.toolchain]
              · rw [← hmanifest, hplan.previous]
              · simpa [Root.set, show manifest_name ≠ toolchain_name by decide] using hcurrent
          simp only [install_locked, hprepare, hcheck]
          rw [sound_accepted, haccepted]
          refine ⟨fun hnamed plan' update' current' hplan' hupdate hcurrent' => ?_, fun hnamed => hnamed plan update current hprepare rfl hcheck⟩
          cases hprepare.symm.trans hplan'
          cases hupdate
          cases hcheck.symm.trans hcurrent'
          exact hnamed

/-! ### A package without values -/

def utf8 (text : String) : Bytes := text.toList.flatMap String.utf8EncodeChar

def bare_manifest : Bytes := utf8 "\x7b\"packages\":[\x7b\"name\":\"a\"\x7d]\x7d"

def requested : Library := ⟨"b", "https://c.org/b", "0123456789012345678901234567890123456789"⟩

def resolved_manifest : Bytes :=
  utf8 "\x7b\"packages\":[\x7b\"name\":\"b\",\"type\":\"git\",\"url\":\"" ++ utf8 requested.git ++ utf8 "\",\"rev\":\"" ++
    utf8 requested.rev ++ utf8 "\"\x7d]\x7d"

/-- The two manifests, read as they are. -/
def two_manifests : Reader Empty where
  requirements _ _ := .ok .empty
  loads content :=
    if content = bare_manifest then .ok (some [some ("a", {})])
    else if content = resolved_manifest then
      .ok (some [some ("b", { type := .str "git", url := .str requested.git, rev := .str requested.rev })])
    else .error ⟨"Expecting value: line 1 column 1 (char 0)"⟩
  dumps text := '"' :: text.toList ++ ['"']

def bare_project : Root := fun path =>
  if path = "lakefile.toml" then .file [] else if path = manifest_name then .file bare_manifest
  else if path = toolchain_name then .file (utf8 "v4") else .absent

def a_dropped : Update where
  lakefile := .file (append_requirements two_manifests "lakefile.toml" [] [requested])
  manifest := .file resolved_manifest
  toolchain := .file (utf8 "v4")
  success := true
  layout_valid := true

theorem resolved_ne_bare : resolved_manifest ≠ bare_manifest := by decide +kernel

/-- The update drops a locked package, and the installation is accepted. -/
theorem dropped_package : ¬Sound two_manifests [requested] bare_project
    (install_locked two_manifests [requested] (.updated a_dropped) bare_project) := by
  have hok : (install_locked two_manifests [requested] (.updated a_dropped) bare_project).1 =
      .ok { accepted := true, status := "installed" } := by decide +kernel
  have hafter : (install_locked two_manifests [requested] (.updated a_dropped) bare_project).2 manifest_name =
      .file resolved_manifest := by decide +kernel
  have hold : lock_packages two_manifests (bare_project manifest_name).read_bytes = .ok (Dict.empty.set "a" {}) := rfl
  have hnew : lock_packages two_manifests (some resolved_manifest) = .ok (Dict.empty.set "b"
      { type := .str "git", url := .str requested.git, rev := .str requested.rev }) := by
    simp only [lock_packages, two_manifests, if_neg resolved_ne_bare]
    rfl
  intro hsound
  unfold Sound at hsound
  rw [hok] at hsound
  obtain ⟨-, -, previous, current, hprevious, hcurrent, hkept, -⟩ := hsound
  rw [hafter] at hcurrent
  obtain rfl := Except.ok.inj (hold.symm.trans hprevious)
  obtain rfl := Except.ok.inj (hnew.symm.trans hcurrent)
  cases hkept "a" {} (Dict.get?_set_self ..)

end LeanFlow.Libraries.Rollback
