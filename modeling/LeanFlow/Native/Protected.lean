import LeanFlow.Native.Proposal
import LeanFlow.Source.LeanHoles

/-! What an accepted proposal keeps of the project.

The declarations of a file have constants that Lean makes of them; `Faithful` says what
LeanProbe and the inspector are taken for. A declaration is looked up by its short name and
a hole in the mask, so `accepted_keeps` needs the anonymous declarations of a changed file to
be kept, the others to stay in their namespaces, and its holes to be shown. -/
namespace LeanFlow.Native
open General Source
open Goals (path_parts lean_suffix)
open Profiles (is_named)

/-! ### Declarations and constants -/

/-- A declaration and the constant that it makes. -/
structure Declaration where
  segment : Segment
  constant : Row

/-- The declarations of a module with this source, in each project. -/
abbrev Elaboration := Project → String → Text → List Declaration

variable {β : Type} [DecidableEq β]

/-- The inspector prints this row, for some source. -/
def Printed (H : Host β) (row : Row) : Prop :=
  ∃ project module text names rows, H.inspect project module text names = some rows ∧ row ∈ rows

structure Faithful (H : Host β) (declarations : Elaboration) : Prop where
  /-- LeanProbe returns every declaration. -/
  segments : ∀ project module text, H.segment_file text = (declarations project module text).map (·.segment)
  /-- A constant is named after its declaration, in some namespace. -/
  named : ∀ project module text, ∀ d ∈ declarations project module text, d.segment.name ≠ "" →
    is_named d.constant.name d.segment.name = true
  /-- Declarations with names do not share constants. -/
  distinct : ∀ project module text, ∀ d ∈ declarations project module text, ∀ d' ∈ declarations project module text,
    d.segment.name ≠ "" → d'.segment.name ≠ "" → d.constant = d'.constant → d = d'
  /-- The inspector prints every constant that a name selects. -/
  inspected : ∀ project module text names rows, H.inspect project module text names = some rows →
    ∀ d ∈ declarations project module text, ∀ name ∈ names, is_named d.constant.name name = true → d.constant ∈ rows
  /-- The digests of what it prints do not collide. -/
  digests : ∀ row row', Printed H row → Printed H row' → H.digest row.fields = H.digest row'.fields → row.fields = row'.fields

/-- The declaration is still there: its constant has the same name, type and level parameters, and
its text is the same unless it proves something. -/
def Remains (H : Host β) (d : Declaration) (later : List Declaration) : Prop :=
  ∃ d' ∈ later, d'.constant.name = d.constant.name ∧ d'.constant.type = d.constant.type ∧
    d'.constant.levels = d.constant.levels ∧
    (d.segment.kind ∉ proofs → strip H.C d'.segment.text = strip H.C d.segment.text)

/-- What is kept of the project; a hole is one for Lean, with any table of symbols. -/
structure Kept (symbols : List Text) (H : Host β) (declarations : Elaboration) (t : Trial β) : Prop where
  configuration : ∀ path, file_name path ∈ CONFIG → t.proposed.get? path = t.baseline.get? path
  present : ∀ path ∈ t.baseline.keys, path ∈ t.proposed.keys
  elsewhere : t.active_file ≠ "" → ∀ path ∈ t.baseline.keys, lean_suffix path = true → path ≠ t.active_file →
    t.proposed.get? path = t.baseline.get? path
  holes : t.workflow ∉ ["draft", "formalize"] → ∀ path data, lean_suffix path = true → t.proposed.get? path = some data →
    t.baseline.get? path ≠ some data → ∃ text, H.decode data = some text ∧
      ∀ found, lex symbols text = some found → sorry_tokens 0 found = []
  declarations : ∀ path original proposed, lean_suffix path = true → t.baseline.get? path = some original →
    t.proposed.get? path = some proposed → original ≠ proposed →
    ∃ before after, H.decode original = some before ∧ H.decode proposed = some after ∧
      ∀ d ∈ declarations .canonical (module_name path) before, Remains H d (declarations .frozen (module_name path) after)

/-- The anonymous declarations of the file remain, and those with a name are not in another namespace later. -/
structure Unmoved (H : Host β) (before after : List Declaration) : Prop where
  anonymous : ∀ d ∈ before, d.segment.name = "" → Remains H d after
  named : ∀ d ∈ before, d.segment.name ≠ "" → ∀ d' ∈ after, d'.segment.name = d.segment.name →
    d'.constant.name = d.constant.name

/-- The declarations of every changed file of the baseline are unmoved. -/
def AllUnmoved (H : Host β) (declarations : Elaboration) (t : Trial β) : Prop :=
  ∀ path original proposed before after, lean_suffix path = true → t.baseline.get? path = some original →
    t.proposed.get? path = some proposed → original ≠ proposed → H.decode original = some before → H.decode proposed = some after →
    Unmoved H (declarations .canonical (module_name path) before) (declarations .frozen (module_name path) after)

/-- The holes of every changed file are shown, but in a draft. -/
def AllShown (symbols : List Text) (H : Host β) (t : Trial β) : Prop :=
  t.workflow ∉ ["draft", "formalize"] → ∀ path data text, lean_suffix path = true → t.proposed.get? path = some data →
    t.baseline.get? path ≠ some data → H.decode data = some text → HolesShown H.C symbols text

/-- The proposal is accepted, and its files can be promoted. -/
def Accepted (H : Host β) (t : Trial β) : Prop := ∃ receipt, verify_proposal H t = .ok receipt ∧ receipt.accepted = true

/-! ### What was checked -/

variable {symbols : List Text} {H : Host β} {t : Trial β} {declarations : Elaboration}

theorem refuse_eq_ok {c : Prop} [Decidable c] {error : String} : refuse c error = .ok () ↔ ¬c := by
  unfold refuse
  by_cases hc : c
  · simp [hc]
  · simp [hc]

/-- The checks that an accepted proposal passed. -/
structure Passed (H : Host β) (t : Trial β) : Prop where
  configuration : ∀ path ∈ t.baseline.keys ++ t.proposed.keys, file_name path ∈ CONFIG →
    t.proposed.get? path = t.baseline.get? path
  present : ∀ path ∈ t.baseline.keys, path ∈ t.proposed.keys
  files : check_files t = .ok ()
  holes : check_holes H t = .ok ()
  definitions : ∀ item ∈ t.lean_changes, check_definitions H t item = .ok ()
  constants : ∀ item ∈ t.lean_changes, ∃ profiles, check_constants H t item = .ok profiles

/-- What the receipt of an accepted proposal has. -/
structure Sealed (H : Host β) (t : Trial β) (receipt : Receipt) : Prop where
  files : ∃ files, (t.changed.mapM fun item => do .ok (item.1, ← decoded H item.2)) = .ok files ∧ receipt.files = Dict.ofList files
  sha256 : receipt.sha256 = Dict.ofList (t.changed.map fun item => (item.1, H.sha256 item.2))
  environment_generation : receipt.environment_generation = some t.generation

theorem passed_of_verify {receipt : Receipt} (h : verify H t = .ok receipt) (hreview : t.workflow ≠ "review") :
    Passed H t ∧ Sealed H t receipt := by
  unfold verify at h
  obtain ⟨_, -, h⟩ := bind_eq_ok.mp h
  obtain ⟨_, hconfiguration, h⟩ := bind_eq_ok.mp h
  obtain ⟨_, hpresent, h⟩ := bind_eq_ok.mp h
  rw [if_neg hreview] at h
  obtain ⟨_, hfiles, h⟩ := bind_eq_ok.mp h
  obtain ⟨_, hholes, h⟩ := bind_eq_ok.mp h
  obtain ⟨_, hdefinitions, h⟩ := bind_eq_ok.mp h
  obtain ⟨_, -, h⟩ := bind_eq_ok.mp h
  obtain ⟨_, -, h⟩ := bind_eq_ok.mp h
  obtain ⟨_, -, h⟩ := bind_eq_ok.mp h
  obtain ⟨profiles, hconstants, h⟩ := bind_eq_ok.mp h
  obtain ⟨_, -, h⟩ := bind_eq_ok.mp h
  obtain ⟨_, -, h⟩ := bind_eq_ok.mp h
  obtain ⟨files, hdecoded, h⟩ := bind_eq_ok.mp h
  obtain rfl := Except.ok.inj h
  refine ⟨⟨fun path hpath hconfig => ?_, fun path hpath => ?_, hfiles, hholes, forM_eq_ok.mp hdefinitions, fun item hitem => ?_⟩,
    ⟨files, hdecoded, rfl⟩, rfl, rfl⟩
  · by_contra hne
    refine refuse_eq_ok.mp hconfiguration (List.any_eq_true.mpr ⟨path, hpath, ?_⟩)
    simp [hconfig, hne]
  · by_contra hmissing
    exact refuse_eq_ok.mp hpresent (List.any_eq_true.mpr ⟨path, hpath, decide_eq_true hmissing⟩)
  · obtain ⟨entry, -, hentry⟩ := mapM_eq_ok hconstants hitem
    exact ⟨entry, hentry⟩

theorem verify_of_accepted {receipt : Receipt} (h : verify_proposal H t = .ok receipt) (haccepted : receipt.accepted = true) :
    verify H t = .ok receipt := by
  unfold verify_proposal at h
  split at h
  · obtain rfl := Except.ok.inj h
    cases haccepted
  · exact h

theorem passed_of_accepted (h : Accepted H t) (hreview : t.workflow ≠ "review") : Passed H t := by
  obtain ⟨receipt, hverify, haccepted⟩ := h
  exact (passed_of_verify (verify_of_accepted hverify haccepted) hreview).1

omit [DecidableEq β] in
theorem decoded_eq_ok {data : β} {text : Text} : decoded H data = .ok text ↔ H.decode data = some text := by
  unfold decoded
  cases H.decode data with
  | none => simp
  | some text' => simp

theorem mem_lean_changes {path : String} {data : β} :
    (path, data) ∈ t.lean_changes ↔
      t.proposed.get? path = some data ∧ t.baseline.get? path ≠ some data ∧ lean_suffix path = true := by
  unfold Trial.lean_changes Trial.changed
  rw [List.mem_filter, List.mem_filter, decide_eq_true_eq, ← Dict.get?_eq_some_iff, and_assoc]

/-! ### Constants -/

omit [DecidableEq β] in
theorem profile_spec {rows : List Row} {name : String} {entry : String × Profile} (h : profile H rows name = .ok entry) :
    entry.1 = name ∧ entry.2.sha256 = H.digest entry.2.row.fields ∧
      ∀ row ∈ rows, is_named row.name name = true → row = entry.2.row := by
  unfold profile at h
  split at h
  · rename_i row hrow
    split at h
    · cases h
    · obtain rfl := Except.ok.inj h
      refine ⟨rfl, rfl, fun other hother hselects => ?_⟩
      have hmem : other ∈ rows.filter fun row => is_named row.name name := List.mem_filter.mpr ⟨hother, hselects⟩
      rw [hrow] at hmem
      exact List.mem_singleton.mp hmem
  · cases h

omit [DecidableEq β] in
/-- Each name has the profile of the only constant that it selects. -/
theorem compiled_spec (hH : Faithful H declarations) {project : Project} {source : Text} {names : List String}
    {module : String} {profiles : Dict String Profile}
    (h : compiled_type_profiles H project source names module = .ok profiles) {name : String} (hname : name ∈ names) :
    ∃ found, profiles.get? name = some found ∧ found.sha256 = H.digest found.row.fields ∧
      ∀ d ∈ declarations project module source, is_named d.constant.name name = true →
        Printed H d.constant ∧ d.constant = found.row := by
  unfold compiled_type_profiles at h
  split at h
  · cases h
  · rename_i rows hrows
    obtain ⟨entries, hentries, h⟩ := bind_eq_ok.mp h
    obtain rfl := Except.ok.inj h
    obtain ⟨entry, hentry, hprofile⟩ := mapM_eq_ok hentries hname
    have hkey : name ∈ entries.map Prod.fst := List.mem_map.mpr ⟨entry, hentry, (profile_spec hprofile).1⟩
    obtain ⟨found, hfound⟩ := Dict.exists_get?_ofList hkey
    obtain ⟨name', -, hprofile'⟩ := mapM_mem hentries (Dict.mem_of_get?_ofList hfound)
    obtain ⟨hname', hsha, honly⟩ := profile_spec hprofile'
    dsimp only at hname' hsha honly
    subst hname'
    refine ⟨found, hfound, hsha, fun d hd hselects => ?_⟩
    have hrow := hH.inspected _ _ _ _ _ hrows d hd _ hname hselects
    exact ⟨⟨_, _, _, _, _, hrows, hrow⟩, honly d.constant hrow hselects⟩

omit [DecidableEq β] in
theorem mem_declaration_names (hH : Faithful H declarations) (project : Project) (module : String) {source : Text}
    {name : String} : name ∈ declaration_names H source ↔
      name ≠ "" ∧ ∃ d ∈ declarations project module source, d.segment.name = name := by
  unfold declaration_names
  rw [List.mem_eraseDups, List.mem_filter, hH.segments project module source, List.map_map, List.mem_map, decide_eq_true_eq,
    and_comm]
  rfl

/-- A name of a file is that of one declaration, and its profile that of the declaration's constant. -/
structure Looked (H : Host β) (profiles : Dict String Profile) (file : List Declaration) (name : String) (d : Declaration) :
    Prop where
  listed : d ∈ file
  called : d.segment.name = name
  only : ∀ d' ∈ file, d'.segment.name = name → d' = d
  alike : ∀ d' ∈ file, is_named d'.constant.name name = true → d'.constant = d.constant
  printed : Printed H d.constant
  found : ∃ found, profiles.get? name = some found ∧ found.sha256 = H.digest d.constant.fields

omit [DecidableEq β] in
theorem looked_of_compiled (hH : Faithful H declarations) {project : Project} {source : Text} {module : String}
    {profiles : Dict String Profile} (h : compiled_type_profiles H project source (declaration_names H source) module = .ok profiles)
    {name : String} (hname : name ∈ declaration_names H source) :
    ∃ d, Looked H profiles (declarations project module source) name d := by
  obtain ⟨hne, d, hd, rfl⟩ := (mem_declaration_names hH project module).mp hname
  obtain ⟨found, hfound, hsha, honly⟩ := compiled_spec hH h hname
  obtain ⟨hprinted, hrow⟩ := honly d hd (hH.named _ _ _ d hd hne)
  refine ⟨d, hd, rfl, fun d' hd' hsame => ?_, fun d' hd' hselects => (honly d' hd' hselects).2.trans hrow.symm, hprinted,
    found, hfound, by rw [hsha, hrow]⟩
  have hne' : d'.segment.name ≠ "" := by
    rw [hsame]
    exact hne
  have hrow' := (honly d' hd' (by rw [← hsame]; exact hH.named _ _ _ d' hd' hne')).2
  exact hH.distinct _ _ _ d' hd' d hd hne' hne (hrow'.trans hrow.symm)

omit [DecidableEq β] in
/-- Equal digests are of equal types and level parameters. -/
theorem fields_inj (hH : Faithful H declarations) {row row' : Row} (hrow : Printed H row) (hrow' : Printed H row')
    (h : H.digest row.fields = H.digest row'.fields) : row.type = row'.type ∧ row.levels = row'.levels := by
  have hfields := hH.digests row row' hrow hrow' h
  simp only [Row.fields, Json.arr.injEq, List.cons.injEq, Json.str.injEq] at hfields
  exact ⟨hfields.2.1, List.map_injective_iff.mpr (fun _ _ he => Json.str.inj he) hfields.1⟩

omit [DecidableEq β] in
/-- What the constants of a changed file were checked for. -/
theorem constants_spec {path : String} {original proposed : β} {entry : String × Dict String Profile}
    (hbaseline : t.baseline.get? path = some original) (h : check_constants H t (path, proposed) = .ok entry) :
    ∃ before after profiles later, H.decode original = some before ∧ H.decode proposed = some after ∧
      compiled_type_profiles H .canonical before (declaration_names H before) (module_name path) = .ok profiles ∧
      compiled_type_profiles H .frozen after (declaration_names H after) (module_name path) = .ok later ∧
      ∀ name ∈ declaration_names H before, name ∈ declaration_names H after ∧
        (profiles.get? name).map (·.sha256) = (later.get? name).map (·.sha256) := by
  unfold check_constants at h
  obtain ⟨after, hafter, h⟩ := bind_eq_ok.mp h
  obtain ⟨_, -, h⟩ := bind_eq_ok.mp h
  split at h
  · cases h
  rename_i later hlater
  obtain ⟨_, -, h⟩ := bind_eq_ok.mp h
  rw [hbaseline] at h
  obtain ⟨before, hbefore, h⟩ := bind_eq_ok.mp h
  obtain ⟨_, hremoved, h⟩ := bind_eq_ok.mp h
  split at h
  · cases h
  rename_i profiles hprofiles
  obtain ⟨_, hchanged, -⟩ := bind_eq_ok.mp h
  refine ⟨before, after, profiles, later, decoded_eq_ok.mp hbefore, decoded_eq_ok.mp hafter, hprofiles, hlater,
    fun name hname => ⟨?_, ?_⟩⟩
  · by_contra hmissing
    exact refuse_eq_ok.mp hremoved (List.any_eq_true.mpr ⟨name, hname, decide_eq_true hmissing⟩)
  · by_contra hne
    exact refuse_eq_ok.mp hchanged (List.any_eq_true.mpr ⟨name, hname, decide_eq_true hne⟩)

omit [DecidableEq β] in
/-- The definitions of the original file are among those of the proposed one. -/
theorem definitions_spec {path : String} {original proposed : β} (hbaseline : t.baseline.get? path = some original)
    (h : check_definitions H t (path, proposed) = .ok ()) :
    ∃ before after, H.decode original = some before ∧ H.decode proposed = some after ∧
      ∀ name text, (protected_definitions H before).get? name = some text → (protected_definitions H after).get? name = some text := by
  unfold check_definitions at h
  obtain ⟨after, hafter, h⟩ := bind_eq_ok.mp h
  dsimp only at h
  rw [hbaseline] at h
  obtain ⟨before, hbefore, h⟩ := bind_eq_ok.mp (show (decoded H original >>= fun before => refuse
      ((protected_definitions H before).items.any fun definition =>
        (protected_definitions H after).get? definition.1 ≠ some definition.2)
      ("An original non-proof definition changed in " ++ path)) = .ok () by
    split at h
    · obtain ⟨_, -, h⟩ := bind_eq_ok.mp h
      obtain ⟨_, -, h⟩ := bind_eq_ok.mp h
      exact h
    · exact h)
  refine ⟨before, after, decoded_eq_ok.mp hbefore, decoded_eq_ok.mp hafter, fun name text hget => ?_⟩
  by_contra hne
  exact refuse_eq_ok.mp h (List.any_eq_true.mpr ⟨(name, text), (Dict.get?_eq_some_iff ..).mp hget, decide_eq_true hne⟩)

omit [DecidableEq β] in
/-- A protected text is that of a declaration of the file. -/
theorem mem_of_protected (hH : Faithful H declarations) (project : Project) (module : String) {source text : Text} {name : String}
    (h : (protected_definitions H source).get? name = some text) :
    ∃ d ∈ declarations project module source, d.segment.name = name ∧ strip H.C d.segment.text = text := by
  have hmem := Dict.mem_of_get?_ofList h
  rw [hH.segments project module source, List.filter_map, List.map_map] at hmem
  obtain ⟨d, hd, heq⟩ := List.mem_map.mp hmem
  exact ⟨d, (List.mem_filter.mp hd).1, congrArg Prod.fst heq, congrArg Prod.snd heq⟩

omit [DecidableEq β] in
/-- A definition that no other declaration of the file shares its name with is protected with its own text. -/
theorem protected_of_only (hH : Faithful H declarations) {project : Project} {module : String} {source : Text}
    {d : Declaration} (hd : d ∈ declarations project module source) (hne : d.segment.name ≠ "") (hkind : d.segment.kind ∉ proofs)
    (honly : ∀ e ∈ declarations project module source, e.segment.name = d.segment.name → e = d) :
    (protected_definitions H source).get? d.segment.name = some (strip H.C d.segment.text) := by
  have hsegment : d.segment ∈ (H.segment_file source).filter fun segment => segment.name ≠ "" ∧ segment.kind ∉ proofs := by
    rw [List.mem_filter, hH.segments project module source]
    exact ⟨List.mem_map_of_mem hd, decide_eq_true ⟨hne, hkind⟩⟩
  have hkey : d.segment.name ∈ (((H.segment_file source).filter fun segment => segment.name ≠ "" ∧ segment.kind ∉ proofs).map
      fun segment => (segment.name, strip H.C segment.text)).map Prod.fst := by
    rw [List.map_map]
    exact List.mem_map_of_mem hsegment
  obtain ⟨text, htext⟩ := Dict.exists_get?_ofList hkey
  obtain ⟨e, he, hname, rfl⟩ := mem_of_protected hH project module htext
  rw [honly e he hname] at htext
  exact htext

/-! ### Acceptance -/

theorem not_blueprint {path : String} (hlean : lean_suffix path = true) : file_name path ≠ "Blueprint.md" := by
  intro heq
  have hname : (path_parts path).getLast?.getD [] = "Blueprint.md".toList := String.ofList_injective heq
  unfold lean_suffix at hlean
  rw [hname] at hlean
  exact absurd hlean (by decide)

/-- With an active file, no other Lean file of the baseline is changed. -/
theorem elsewhere_of_files (hpresent : ∀ path ∈ t.baseline.keys, path ∈ t.proposed.keys) (h : check_files t = .ok ())
    (hactive : t.active_file ≠ "") (path : String) (hpath : path ∈ t.baseline.keys) (hlean : lean_suffix path = true)
    (hne : path ≠ t.active_file) : t.proposed.get? path = t.baseline.get? path := by
  unfold check_files at h
  obtain ⟨_, -, h⟩ := bind_eq_ok.mp h
  obtain ⟨_, -, h⟩ := bind_eq_ok.mp h
  obtain ⟨_, helsewhere, -⟩ := bind_eq_ok.mp h
  obtain ⟨data, hdata⟩ := (Dict.mem_keys_iff ..).mp (hpresent path hpath)
  by_contra hchanged
  refine refuse_eq_ok.mp helsewhere ⟨hactive, List.any_eq_true.mpr ⟨(path, data), ?_, ?_⟩⟩
  · unfold Trial.changed
    rw [List.mem_filter, decide_eq_true_eq, ← Dict.get?_eq_some_iff, ← hdata]
    exact ⟨rfl, fun he => hchanged he.symm⟩
  · simp [hpath, hne, not_blueprint hlean]

/-- Outside drafts a changed source has no hole. -/
theorem holes_spec (h : check_holes H t = .ok ()) (hdraft : t.workflow ∉ ["draft", "formalize"]) {path : String} {data : β}
    (hmem : (path, data) ∈ t.lean_changes) : ∃ text, H.decode data = some text ∧ sorry_spans H.C text = .ok [] := by
  unfold check_holes at h
  obtain ⟨holes, hholes, h⟩ := bind_eq_ok.mp h
  have hfalse : holes = false := by
    by_contra htrue
    exact refuse_eq_ok.mp h ⟨eq_true_of_ne_false htrue, decide_eq_false hdraft⟩
  subst hfalse
  obtain ⟨text, htext, hitem⟩ := bind_eq_ok.mp (anyM_eq_false hholes hmem)
  obtain ⟨spans, hspans, hitem⟩ := bind_eq_ok.mp hitem
  refine ⟨text, decoded_eq_ok.mp htext, ?_⟩
  have hnone : spans = [] := by simpa using Except.ok.inj hitem
  subst hnone
  unfold spans_of at hspans
  cases hmasked : sorry_spans H.C text with
  | error e =>
    rw [hmasked] at hspans
    cases hspans
  | ok spans =>
    rw [hmasked] at hspans
    exact congrArg Except.ok (Except.ok.inj hspans)

omit [DecidableEq β] in
/-- A declaration with a name is found again in the proposed file, with its type and its text. -/
theorem matched (hH : Faithful H declarations) {path : String} {original proposed : β} {before after : Text}
    (hbefore : H.decode original = some before) (hafter : H.decode proposed = some after)
    (hbaseline : t.baseline.get? path = some original) (hdefinitions : check_definitions H t (path, proposed) = .ok ())
    (hconstants : ∃ entry, check_constants H t (path, proposed) = .ok entry) {d : Declaration}
    (hd : d ∈ declarations .canonical (module_name path) before) (hne : d.segment.name ≠ "") :
    ∃ d' ∈ declarations .frozen (module_name path) after, d'.segment.name = d.segment.name ∧
      (∀ e ∈ declarations .frozen (module_name path) after, is_named e.constant.name d.segment.name = true → e.constant = d'.constant) ∧
      d'.constant.type = d.constant.type ∧ d'.constant.levels = d.constant.levels ∧
      (d.segment.kind ∉ proofs → strip H.C d'.segment.text = strip H.C d.segment.text) := by
  obtain ⟨entry, hentry⟩ := hconstants
  obtain ⟨before', after', profiles, later, hbefore', hafter', hprofiles, hlater, hnames⟩ := constants_spec hbaseline hentry
  obtain rfl := Option.some.inj (hbefore.symm.trans hbefore')
  obtain rfl := Option.some.inj (hafter.symm.trans hafter')
  have hname : d.segment.name ∈ declaration_names H before := (mem_declaration_names hH _ _).mpr ⟨hne, d, hd, rfl⟩
  obtain ⟨hname', hsame⟩ := hnames _ hname
  obtain ⟨d₀, hlooked⟩ := looked_of_compiled hH hprofiles hname
  obtain rfl := hlooked.only d hd rfl
  obtain ⟨d', hlooked'⟩ := looked_of_compiled hH hlater hname'
  obtain ⟨found, hfound, hsha⟩ := hlooked.found
  obtain ⟨found', hfound', hsha'⟩ := hlooked'.found
  rw [hfound, hfound'] at hsame
  obtain ⟨htype, hlevels⟩ := fields_inj hH hlooked.printed hlooked'.printed
    (hsha.symm.trans ((Option.some.inj hsame).trans hsha'))
  refine ⟨d', hlooked'.listed, hlooked'.called, hlooked'.alike, htype.symm, hlevels.symm, fun hkind => ?_⟩
  obtain ⟨before', after', hbefore', hafter', hkept⟩ := definitions_spec hbaseline hdefinitions
  obtain rfl := Option.some.inj (hbefore.symm.trans hbefore')
  obtain rfl := Option.some.inj (hafter.symm.trans hafter')
  obtain ⟨e, he, hcalled, htext⟩ :=
    mem_of_protected hH .frozen (module_name path) (hkept _ _ (protected_of_only hH hd hne hkind hlooked.only))
  rw [← hlooked'.only e he hcalled]
  exact htext

omit [DecidableEq β] in
/-- The declarations of a changed file remain just when the anonymous ones do, and the others stay in their namespaces. -/
theorem remains_iff (hH : Faithful H declarations) {path : String} {original proposed : β} {before after : Text}
    (hbefore : H.decode original = some before) (hafter : H.decode proposed = some after)
    (hbaseline : t.baseline.get? path = some original) (hdefinitions : check_definitions H t (path, proposed) = .ok ())
    (hconstants : ∃ entry, check_constants H t (path, proposed) = .ok entry) :
    (∀ d ∈ declarations .canonical (module_name path) before, Remains H d (declarations .frozen (module_name path) after)) ↔
      Unmoved H (declarations .canonical (module_name path) before) (declarations .frozen (module_name path) after) := by
  constructor
  · intro hremains
    refine ⟨fun d hd _ => hremains d hd, fun d hd hne e he hname => ?_⟩
    obtain ⟨d', -, -, halike, -⟩ := matched hH hbefore hafter hbaseline hdefinitions hconstants hd hne
    obtain ⟨d'', hd'', hconstant, -⟩ := hremains d hd
    have hd''_selected : is_named d''.constant.name d.segment.name = true := by
      rw [hconstant]
      exact hH.named _ _ _ d hd hne
    have he_selected : is_named e.constant.name d.segment.name = true := by
      rw [← hname]
      refine hH.named _ _ _ e he ?_
      rw [hname]
      exact hne
    rw [halike e he he_selected, ← halike d'' hd'' hd''_selected, hconstant]
  · intro hunmoved d hd
    by_cases hne : d.segment.name = ""
    · exact hunmoved.anonymous d hd hne
    · obtain ⟨d', hd', hname, -, htype, hlevels, htext⟩ := matched hH hbefore hafter hbaseline hdefinitions hconstants hd hne
      exact ⟨d', hd', hunmoved.named d hd hne d' hd' hname, htype, hlevels, htext⟩

omit [DecidableEq β] in
/-- A hole of a changed file is shown in vain: nothing was found. -/
theorem shown_of_holes (hholes : t.workflow ∉ ["draft", "formalize"] → ∀ path data, lean_suffix path = true →
      t.proposed.get? path = some data → t.baseline.get? path ≠ some data → ∃ text, H.decode data = some text ∧
        ∀ found, lex symbols text = some found → sorry_tokens 0 found = []) : AllShown symbols H t := by
  intro hdraft path data text hlean hproposed hne hdecode found mask hlex _ span hspan
  obtain ⟨text', htext', hnone⟩ := hholes hdraft path data hlean hproposed hne
  obtain rfl := Option.some.inj (hdecode.symm.trans htext')
  rw [hnone found hlex] at hspan
  cases hspan

/-- A host for projects whose sources have these declarations. -/
def sampleHost (declared : Text → List Declaration) : Host Text where
  C := .ascii
  decode := some
  sha256 _ := ""
  digest
    | .arr [_, .str type, _] => type
    | _ => ""
  segment_file text := (declared text).map (·.segment)
  inspect _ _ text names := some (((declared text).map (·.constant)).filter fun row => names.any fun name => is_named row.name name)

def sampleHole : Text := "theorem t : True := sorry".toList

def sampleProof : Text := "theorem t : True := trivial".toList

def sampleInstance : Text := "instance : Inhabited Nat := default".toList

def sampleLemma (text : Text) : Declaration where
  segment := { kind := "theorem", name := "t", text }
  constant := { name := "t", type := "True", levels := [], dependencies := [], axioms := if text = sampleProof then [] else ["sorryAx"] }

def sampleAnonymous : Declaration where
  segment := { kind := "instance", name := "", text := sampleInstance }
  constant := { name := "instInhabitedNat", type := "Inhabited Nat", levels := [], dependencies := [], axioms := [] }

def sampleBoth : Text := sampleHole ++ '\n' :: sampleInstance

/-- A hole that the mask takes for a part of a string. -/
def sampleTriple : Text := "instance : Inhabited (Char × Nat × Char) := ⟨('\"', sorry, '\"')⟩".toList

def sampleHidden : Text := sampleProof ++ '\n' :: sampleTriple

def sampleUnfinished : Declaration where
  segment := { kind := "instance", name := "", text := sampleTriple }
  constant := { name := "instInhabitedProd", type := "Inhabited (Char × Nat × Char)", levels := [], dependencies := [], axioms := ["sorryAx"] }

def sampleDeclared (text : Text) : List Declaration :=
  if text = sampleBoth then [sampleLemma sampleHole, sampleAnonymous]
  else if text = sampleHidden then [sampleLemma sampleProof, sampleUnfinished]
  else [sampleLemma text]

theorem sample_declared {text : Text} (hboth : text ≠ sampleBoth) (hhidden : text ≠ sampleHidden) :
    sampleDeclared text = [sampleLemma text] := by
  rw [sampleDeclared, if_neg hboth, if_neg hhidden]

/-- Each text has one lemma, and instances without a name. -/
theorem mem_sampleDeclared (text : Text) : ∃ proof, ∀ d ∈ sampleDeclared text,
    d = sampleLemma proof ∨ d = sampleAnonymous ∨ d = sampleUnfinished := by
  by_cases hboth : text = sampleBoth
  · exact ⟨sampleHole, by simp [sampleDeclared, if_pos hboth]⟩
  · by_cases hhidden : text = sampleHidden
    · exact ⟨sampleProof, by simp [sampleDeclared, if_neg hboth, if_pos hhidden]⟩
    · exact ⟨text, by simp [sample_declared hboth hhidden]⟩

theorem sample_printed {row : Row} (h : Printed (sampleHost sampleDeclared) row) : row.levels = [] ∧ row.dependencies = [] := by
  obtain ⟨_, _, text, _, rows, hrows, hrow⟩ := h
  obtain rfl := Option.some.inj hrows
  obtain ⟨d, hd, rfl⟩ := List.mem_map.mp (List.mem_filter.mp hrow).1
  obtain ⟨proof, hdeclared⟩ := mem_sampleDeclared text
  rcases hdeclared d hd with rfl | rfl | rfl
  · exact ⟨rfl, rfl⟩
  · exact ⟨rfl, rfl⟩
  · exact ⟨rfl, rfl⟩

/-- Only the lemma has a name. -/
theorem sample_named {text proof : Text} (hdeclared : ∀ d ∈ sampleDeclared text, d = sampleLemma proof ∨ d = sampleAnonymous ∨ d = sampleUnfinished)
    {d : Declaration} (hd : d ∈ sampleDeclared text) (hne : d.segment.name ≠ "") : d = sampleLemma proof := by
  rcases hdeclared d hd with hlemma | rfl | rfl
  · exact hlemma
  · exact absurd rfl hne
  · exact absurd rfl hne

theorem sample_faithful : Faithful (sampleHost sampleDeclared) fun _ _ text => sampleDeclared text where
  segments _ _ _ := rfl
  named _ _ text d hd hne := by
    obtain ⟨proof, hdeclared⟩ := mem_sampleDeclared text
    obtain rfl := sample_named hdeclared hd hne
    show is_named "t" "t" = true
    decide
  distinct _ _ text d hd d' hd' hne hne' _ := by
    obtain ⟨proof, hdeclared⟩ := mem_sampleDeclared text
    rw [sample_named hdeclared hd hne, sample_named hdeclared hd' hne']
  inspected _ _ text names rows hrows d hd name hname hselects := by
    obtain rfl := Option.some.inj hrows
    exact List.mem_filter.mpr ⟨List.mem_map_of_mem hd, List.any_eq_true.mpr ⟨name, hname, hselects⟩⟩
  digests row row' hrow hrow' h := by
    have htype : row.type = row'.type := h
    unfold Row.fields
    rw [htype, (sample_printed hrow).1, (sample_printed hrow').1, (sample_printed hrow).2, (sample_printed hrow').2]

/-- The source of the only module is replaced. -/
def sampleTrial (before after : Text) : Trial Text where
  baseline := Dict.ofList [("Main.lean", before)]
  proposed := Dict.ofList [("Main.lean", after)]
  workflow := "prove"
  active_file := "Main.lean"
  canonical := Dict.ofList [("Main.lean", before)]
  copied := Dict.ofList [("Main.lean", before)]
  frozen := Dict.ofList [("Main.lean", after)]
  build := true
  generation := "1"
  later_generation := "1"

theorem sample_files {before after : Text} {path : String} {original proposed : Text}
    (hbaseline : (sampleTrial before after).baseline.get? path = some original)
    (hproposed : (sampleTrial before after).proposed.get? path = some proposed) :
    path = "Main.lean" ∧ original = before ∧ proposed = after := by
  have hbefore := Dict.mem_of_get?_ofList hbaseline
  have hafter := Dict.mem_of_get?_ofList hproposed
  rw [List.mem_singleton, Prod.mk.injEq] at hbefore hafter
  exact ⟨hbefore.1, hbefore.2, hafter.2⟩

theorem sample_hole : sampleDeclared sampleHole = [sampleLemma sampleHole] := sample_declared (by decide) (by decide)

theorem sample_proof : sampleDeclared sampleProof = [sampleLemma sampleProof] := sample_declared (by decide) (by decide)

theorem sample_accepted : Accepted (sampleHost sampleDeclared) (sampleTrial sampleHole sampleHidden) := by
  have hreceipt : (verify_proposal (sampleHost sampleDeclared) (sampleTrial sampleHole sampleHidden)).toOption.any (·.accepted) = true := by
    decide +kernel
  obtain ⟨receipt, hverify, haccepted⟩ := (Option.any_eq_true ..).mp hreceipt
  refine ⟨receipt, ?_, haccepted⟩
  cases hresult : verify_proposal (sampleHost sampleDeclared) (sampleTrial sampleHole sampleHidden) with
  | error e =>
    rw [hresult] at hverify
    cases hverify
  | ok receipt' =>
    rw [hresult] at hverify
    exact congrArg Except.ok (Option.some.inj hverify)

end LeanFlow.Native
