import LeanFlow.Cache.Closure
import LeanFlow.General.JsonText
import LeanFlow.Goals.Dag

/-! The key of a checked submission.

`submission_key` is the digest of one JSON object: the candidate, the node, its
dependencies, the policy, the environment files, the imported managed sources and the
generation of everything else that Lean reads. Two equal keys are of equal objects. -/
namespace LeanFlow.Cache
open General Goals Source

/-! ### What a key is computed from -/

/-- The controller's data, and the files it does not manage. -/
structure Inputs (φ : Type) where
  documents : Dict String SourceDocument
  dag : Dag
  allowed_axioms : List String
  verifier : Nat
  files : φ

/-- Why there is no key. -/
inductive Unkeyed where
  | value_error (error : ValueError)
  | key_error (dependency : String)
deriving DecidableEq

/-- The functions under a key: the Unicode tables, the hash, the number format and the look at the files. -/
structure Host (φ υ : Type) where
  C : CharClass
  digit : Char → Bool
  digest : Text → String
  float_repr : Rat → List Char
  /-- What a file of the root contains, when it is one. -/
  read_file : φ → String → Option Text
  /-- Sees everything but the paths it is given. -/
  lean_environment_generation : List String → φ → String
  /-- What Lean reads besides these paths. -/
  unmanaged : List String → φ → υ

/-- Digests do not collide, and the generation changes with what Lean reads. -/
structure Host.Faithful {φ υ : Type} (H : Host φ υ) : Prop where
  digest_injective : Function.Injective H.digest
  generation_changes : ∀ {paths paths' files files'}, H.lean_environment_generation paths files =
    H.lean_environment_generation paths' files' → H.unmanaged paths files = H.unmanaged paths' files'

def environment_files : List String := ["lean-toolchain", "lakefile.toml", "lakefile.lean", "lake-manifest.json"]

/-- `read_text` reads each line end as a line feed. -/
def universal_newlines : Text → Text
  | '\r' :: '\n' :: rest => '\n' :: universal_newlines rest
  | '\r' :: rest => '\n' :: universal_newlines rest
  | c :: rest => c :: universal_newlines rest
  | [] => []

section Key

variable {φ υ : Type} (H : Host φ υ)

/-- The text of an environment file, when there is one. -/
def Host.environment (files : φ) (name : String) : Option Text := (H.read_file files name).map universal_newlines

/-- A dependency, as a key has it. -/
def dependency_field (dag : Dag) (dep : String) : Except Unkeyed Json :=
  match dag.by_id dep with
  | none => .error (.key_error dep)
  | some node => .ok (.obj [("id", .str dep), ("status", .str node.status.value),
      ("signature", .str node.signature_sha256), ("proof", .str node.proof_sha256)])

def digest_field (digest : Text → String) : Option Text → Json
  | none => .null
  | some text => .str (digest text)

/-- The object of a key. -/
def key_fields (i : Inputs φ) (node : Node) (source : Text) (dependencies : List Json) (imports : Dict String String) :
    Fields :=
  [("source", .str (String.ofList source)), ("node", .str node.id), ("name", .str node.name), ("file", .str node.file),
    ("original", .bool node.original), ("verifier", .num i.verifier), ("revision", .num node.revision),
    ("statement", .str node.statement), ("signature", .str node.signature_sha256),
    ("mutable_names", .arr (node.signature_mutable_names.map .str)), ("dependencies", .arr dependencies),
    ("axioms", .arr (i.allowed_axioms.map .str)),
    ("environment", .obj (environment_files.map fun name => (name, digest_field H.digest (H.environment i.files name)))),
    ("imports", .obj (imports.items.map fun p => (p.1, .str p.2))),
    ("dependency_generation", .str (H.lean_environment_generation i.documents.keys i.files))]

/-- Fingerprint the exact candidate, protected type, policy, and every imported source. -/
def submission_key (i : Inputs φ) (node : Node) (source : Text) : Except Unkeyed String := do
  let dependencies ← node.dependencies.mapM (dependency_field i.dag)
  let imports ← (import_closure H.C H.digit H.digest i.documents node.file (some source)).mapError .value_error
  .ok (H.digest ((Json.obj (key_fields H i node source dependencies imports)).sort_keys.dumps H.float_repr))

variable {H}

/-! ### Equal keys -/

theorem find_map_values {α β : Type} (f : α → β) (items : List (String × α)) (name : String) :
    Dict.find name (items.map fun p => (p.1, f p.2)) = (Dict.find name items).map f := by
  induction items with
  | nil => rfl
  | cons p items ih =>
    rw [List.map_cons, Dict.find, Dict.find]
    split
    · rfl
    · exact ih

theorem find_map_names {α : Type} (f : String → α) {names : List String} {name : String} (h : name ∈ names) :
    Dict.find name (names.map fun name => (name, f name)) = some (f name) := by
  induction names with
  | nil => cases h
  | cons first names ih =>
    rw [List.map_cons, Dict.find]
    split
    · rename_i hfirst
      exact congrArg (some ∘ f) hfirst
    · rename_i hfirst
      exact ih ((List.mem_cons.mp h).resolve_left fun hname => hfirst hname.symm)

theorem sort_strings (names : List String) : Json.sort_keys (.arr (names.map .str)) = .arr (names.map .str) := by
  rw [Json.sort_keys, Json.sort_items_eq, List.map_map]
  rfl

theorem strings_inj {names names' : List String}
    (h : Json.sort_keys (.arr (names.map .str)) = Json.sort_keys (.arr (names'.map .str))) : names = names' := by
  rw [sort_strings, sort_strings] at h
  exact List.map_injective_iff.mpr (fun _ _ => Json.str.inj) (Json.arr.inj h)

theorem natural_inj {m n : Nat} (h : Json.num m = Json.num n) : m = n := Nat.cast_injective (Json.num.inj h)

theorem digest_field_inj {digest : Text → String} (hdigest : Function.Injective digest) {text text' : Option Text}
    (h : (digest_field digest text).sort_keys = (digest_field digest text').sort_keys) : text = text' := by
  cases text with
  | none =>
    cases text' with
    | none => rfl
    | some _ => cases h
  | some _ =>
    cases text' with
    | none => cases h
    | some _ => exact congrArg some (hdigest (Json.str.inj h))

/-- A dependency has one status and one proof in two graphs. -/
def SameProof (dag dag' : Dag) (dep : String) : Prop :=
  ∃ node node', dag.by_id dep = some node ∧ dag'.by_id dep = some node' ∧ node.status = node'.status ∧
    node.signature_sha256 = node'.signature_sha256 ∧ node.proof_sha256 = node'.proof_sha256

theorem dependency_field_eq_ok {dag : Dag} {dep : String} {field : Json} (h : dependency_field dag dep = .ok field) :
    ∃ node, dag.by_id dep = some node ∧ field = .obj [("id", .str dep), ("status", .str node.status.value),
      ("signature", .str node.signature_sha256), ("proof", .str node.proof_sha256)] := by
  unfold dependency_field at h
  split at h
  · cases h
  · exact ⟨_, ‹_›, (Except.ok.inj h).symm⟩

theorem dependency_inj {dag dag' : Dag} {dep dep' : String} {field field' : Json}
    (hfield : dependency_field dag dep = .ok field) (hfield' : dependency_field dag' dep' = .ok field')
    (h : field.sort_keys = field'.sort_keys) : dep = dep' ∧ SameProof dag dag' dep := by
  obtain ⟨node, hnode, rfl⟩ := dependency_field_eq_ok hfield
  obtain ⟨node', hnode', rfl⟩ := dependency_field_eq_ok hfield'
  have hnames : ["id", "status", "signature", "proof"].Nodup := by decide
  have hget := Json.get?_of_sort_keys h hnames hnames
  have hid : dep = dep' := Json.str.inj (Option.some.inj (hget "id"))
  have hstatus := NodeStatus.value_injective (Json.str.inj (Option.some.inj (hget "status")))
  have hsignature : node.signature_sha256 = node'.signature_sha256 := Json.str.inj (Option.some.inj (hget "signature"))
  have hproof : node.proof_sha256 = node'.proof_sha256 := Json.str.inj (Option.some.inj (hget "proof"))
  exact ⟨hid, node, node', hnode, hid ▸ hnode', hstatus, hsignature, hproof⟩

theorem dependencies_inj {dag dag' : Dag} {deps deps' : List String} {fields fields' : List Json}
    (hfields : deps.mapM (dependency_field dag) = .ok fields) (hfields' : deps'.mapM (dependency_field dag') = .ok fields')
    (h : fields.map Json.sort_keys = fields'.map Json.sort_keys) :
    deps = deps' ∧ ∀ dep ∈ deps, SameProof dag dag' dep := by
  induction deps generalizing deps' fields fields' with
  | nil =>
    obtain rfl := Except.ok.inj hfields
    cases deps' with
    | nil => exact ⟨rfl, fun _ => nofun⟩
    | cons dep' deps' =>
      rw [List.mapM_cons] at hfields'
      obtain ⟨field', -, hfields'⟩ := bind_eq_ok.mp hfields'
      obtain ⟨rest', -, hfields'⟩ := bind_eq_ok.mp hfields'
      obtain rfl := Except.ok.inj hfields'
      cases h
  | cons dep deps ih =>
    rw [List.mapM_cons] at hfields
    obtain ⟨field, hfield, hfields⟩ := bind_eq_ok.mp hfields
    obtain ⟨rest, hrest, hfields⟩ := bind_eq_ok.mp hfields
    obtain rfl := Except.ok.inj hfields
    cases deps' with
    | nil =>
      obtain rfl := Except.ok.inj hfields'
      cases h
    | cons dep' deps' =>
      rw [List.mapM_cons] at hfields'
      obtain ⟨field', hfield', hfields'⟩ := bind_eq_ok.mp hfields'
      obtain ⟨rest', hrest', hfields'⟩ := bind_eq_ok.mp hfields'
      obtain rfl := Except.ok.inj hfields'
      obtain ⟨hfirst, hmore⟩ := List.cons.inj h
      obtain ⟨rfl, hproof⟩ := dependency_inj hfield hfield' hfirst
      obtain ⟨rfl, hproofs⟩ := ih hrest hrest' hmore
      exact ⟨rfl, List.forall_mem_cons.mpr ⟨hproof, hproofs⟩⟩

theorem integral_strings (names : List String) : (Json.arr (names.map .str)).Integral := by
  refine (Json.integralItems_iff _).mpr fun item hitem => ?_
  obtain ⟨_, -, rfl⟩ := List.mem_map.mp hitem
  trivial

theorem integral_dependency {dag : Dag} {dep : String} {field : Json} (h : dependency_field dag dep = .ok field) :
    field.Integral := by
  obtain ⟨_, -, rfl⟩ := dependency_field_eq_ok h
  exact ⟨trivial, trivial, trivial, trivial, trivial⟩

theorem integral_key_fields {i : Inputs φ} {node : Node} {source : Text} {dependencies : List Json}
    {imports : Dict String String} (hdependencies : ∀ field ∈ dependencies, Json.Integral field) :
    (Json.obj (key_fields H i node source dependencies imports)).Integral := by
  have henvironment : (Json.obj (environment_files.map fun name =>
      (name, digest_field H.digest (H.environment i.files name)))).Integral := by
    refine (Json.integralFields_iff _).mpr fun field hfield => ?_
    obtain ⟨name, -, rfl⟩ := List.mem_map.mp hfield
    cases H.environment i.files name <;> trivial
  have himports : (Json.obj (imports.items.map fun p => (p.1, .str p.2))).Integral := by
    refine (Json.integralFields_iff _).mpr fun field hfield => ?_
    obtain ⟨_, -, rfl⟩ := List.mem_map.mp hfield
    trivial
  exact ⟨trivial, trivial, trivial, trivial, trivial, Rat.den_natCast _, Rat.den_natCast _, trivial, trivial,
    integral_strings _, (Json.integralItems_iff _).mpr hdependencies, integral_strings _, henvironment, himports, trivial,
    trivial⟩

/-- The names of the object of a key. -/
def key_names : List String :=
  ["source", "node", "name", "file", "original", "verifier", "revision", "statement", "signature", "mutable_names",
    "dependencies", "axioms", "environment", "imports", "dependency_generation"]

theorem nodup_key_names : key_names.Nodup := by decide

/-- Two closures have the same fingerprints. -/
def SameImports (H : Host φ υ) (i i' : Inputs φ) (file file' : String) (source source' : Text) : Prop :=
  ∃ closure closure', import_closure H.C H.digit H.digest i.documents file (some source) = .ok closure ∧
    import_closure H.C H.digit H.digest i'.documents file' (some source') = .ok closure' ∧
    ∀ path, closure.get? path = closure'.get? path

/-- What one key says of two candidates. -/
structure SameKey (H : Host φ υ) (i i' : Inputs φ) (node node' : Node) (source source' : Text) : Prop where
  text : source = source'
  id : node.id = node'.id
  name : node.name = node'.name
  file : node.file = node'.file
  original : node.original = node'.original
  verifier : i.verifier = i'.verifier
  revision : node.revision = node'.revision
  statement : node.statement = node'.statement
  signature : node.signature_sha256 = node'.signature_sha256
  mutable_names : node.signature_mutable_names = node'.signature_mutable_names
  dependencies : node.dependencies = node'.dependencies
  proofs : ∀ dep ∈ node.dependencies, SameProof i.dag i'.dag dep
  axioms : i.allowed_axioms = i'.allowed_axioms
  environment : ∀ name ∈ environment_files, H.environment i.files name = H.environment i'.files name
  imports : SameImports H i i' node.file node'.file source source'
  unmanaged : H.unmanaged i.documents.keys i.files = H.unmanaged i'.documents.keys i'.files

theorem submission_key_eq_ok {i : Inputs φ} {node : Node} {source : Text} {key : String}
    (h : submission_key H i node source = .ok key) : ∃ dependencies imports,
      node.dependencies.mapM (dependency_field i.dag) = .ok dependencies ∧
      import_closure H.C H.digit H.digest i.documents node.file (some source) = .ok imports ∧
      key = H.digest ((Json.obj (key_fields H i node source dependencies imports)).sort_keys.dumps H.float_repr) := by
  obtain ⟨dependencies, hdependencies, h⟩ := bind_eq_ok.mp h
  obtain ⟨imports, himports, h⟩ := bind_eq_ok.mp h
  refine ⟨dependencies, imports, hdependencies, ?_, (Except.ok.inj h).symm⟩
  cases hclosure : import_closure H.C H.digit H.digest i.documents node.file (some source) with
  | ok closure =>
    rw [hclosure] at himports
    exact congrArg Except.ok (Except.ok.inj himports)
  | error e =>
    rw [hclosure] at himports
    cases himports

theorem same_environment (hH : H.Faithful) {files files' : φ}
    (h : (Json.obj (environment_files.map fun name => (name, digest_field H.digest (H.environment files name)))).sort_keys =
      (Json.obj (environment_files.map fun name => (name, digest_field H.digest (H.environment files' name)))).sort_keys) :
    ∀ name ∈ environment_files, H.environment files name = H.environment files' name := by
  intro name hname
  have hnames : environment_files.Nodup := by decide
  have hget := Json.get?_of_sort_keys h hnames hnames name
  rw [Fields.get?, Fields.get?, find_map_names _ hname, find_map_names _ hname] at hget
  exact digest_field_inj hH.digest_injective (Option.some.inj hget)

theorem same_imports {closure closure' : Dict String String}
    (h : (Json.obj (closure.items.map fun p => (p.1, .str p.2))).sort_keys =
      (Json.obj (closure'.items.map fun p => (p.1, .str p.2))).sort_keys) (path : String) :
    closure.get? path = closure'.get? path := by
  have hnames (closure : Dict String String) :
      ((closure.items.map fun p => (p.1, Json.str p.2)).map Prod.fst).Nodup := by
    rw [List.map_map]
    exact closure.distinct
  have hget := Json.get?_of_sort_keys h (hnames closure) (hnames closure') path
  rw [Fields.get?, Fields.get?, find_map_values, find_map_values, Option.map_map, Option.map_map] at hget
  exact Option.map_injective (fun _ _ => Json.str.inj) hget

/-- **One key is of one candidate**, checked under one policy with the same inputs. -/
theorem submission_key_inj (hH : H.Faithful) {i i' : Inputs φ} {node node' : Node} {source source' : Text} {key : String}
    (hkey : submission_key H i node source = .ok key) (hkey' : submission_key H i' node' source' = .ok key) :
    SameKey H i i' node node' source source' := by
  obtain ⟨dependencies, imports, hdependencies, himports, rfl⟩ := submission_key_eq_ok hkey
  obtain ⟨dependencies', imports', hdependencies', himports', hdigest⟩ := submission_key_eq_ok hkey'
  have hget := Json.get?_of_dumps (hH.digest_injective hdigest)
    (integral_key_fields fun field hfield => by
      obtain ⟨_, -, hfield⟩ := mapM_mem hdependencies hfield
      exact integral_dependency hfield)
    (integral_key_fields fun field hfield => by
      obtain ⟨_, -, hfield⟩ := mapM_mem hdependencies' hfield
      exact integral_dependency hfield)
    nodup_key_names nodup_key_names
  have hsource : String.ofList source = String.ofList source' := Json.str.inj (Option.some.inj (hget "source"))
  obtain ⟨hids, hproofs⟩ := dependencies_inj hdependencies hdependencies'
    (Json.map_of_sort_keys (Option.some.inj (hget "dependencies")))
  exact {
    text := String.ofList_injective hsource
    id := Json.str.inj (Option.some.inj (hget "node"))
    name := Json.str.inj (Option.some.inj (hget "name"))
    file := Json.str.inj (Option.some.inj (hget "file"))
    original := Json.bool.inj (Option.some.inj (hget "original"))
    verifier := natural_inj (Option.some.inj (hget "verifier"))
    revision := natural_inj (Option.some.inj (hget "revision"))
    statement := Json.str.inj (Option.some.inj (hget "statement"))
    signature := Json.str.inj (Option.some.inj (hget "signature"))
    mutable_names := strings_inj (Option.some.inj (hget "mutable_names"))
    dependencies := hids
    proofs := hproofs
    axioms := strings_inj (Option.some.inj (hget "axioms"))
    environment := same_environment hH (Option.some.inj (hget "environment"))
    imports := ⟨imports, imports', himports, himports', same_imports (Option.some.inj (hget "imports"))⟩
    unmanaged := hH.generation_changes (Json.str.inj (Option.some.inj (hget "dependency_generation"))) }

end Key

end LeanFlow.Cache
