import LeanFlow.Profiles.Fingerprint

/-! What a fingerprint vouches for.

A statement means what its constants are, down to the constructors of its inductive types. The
rows show types and values only: they do not lead to constructors, and do not tell an axiom from
a theorem or an inductive type. Where the modules differ in nothing that is shown, the rest is
taken on trust (`fingerprint_exact`). -/
namespace LeanFlow.Profiles
open General

namespace ConstantInfo
variable {Expr : Type}

def ctors : ConstantInfo Expr → List String
  | inductInfo _ ctors => ctors
  | _ => []

/-- A constant without what may change: a proof, and the value of a mutable declaration. -/
def fixed (mutable : Bool) : ConstantInfo Expr → ConstantInfo (Option Expr)
  | axiomInfo val => axiomInfo ⟨val.levelParams, some val.type⟩
  | defnInfo val value => defnInfo ⟨val.levelParams, some val.type⟩ (if mutable then none else some value)
  | thmInfo val _ => thmInfo ⟨val.levelParams, some val.type⟩ none
  | opaqueInfo val value => opaqueInfo ⟨val.levelParams, some val.type⟩ (if mutable then none else some value)
  | inductInfo val ctors => inductInfo ⟨val.levelParams, some val.type⟩ ctors
  | ctorInfo val => ctorInfo ⟨val.levelParams, some val.type⟩
  | recInfo val => recInfo ⟨val.levelParams, some val.type⟩

end ConstantInfo

section
variable {Expr : Type} (getUsedConstants : Expr → List String) (repr : Expr → String)
variable (float_repr : Rat → List Char) (digest : List Char → String)
variable (names mutableNames : List String) (module module' : Module Expr)

/-- The constants that one depends on, the constructors of an inductive type among them. -/
def needs (name : String) : List String :=
  next getUsedConstants module mutableNames name ++ (module.get? name).elim [] ConstantInfo.ctors

/-- A constant that a type depends on. -/
def DependsOn (type : Expr) (name : String) : Prop :=
  ∃ s ∈ getUsedConstants type, Relation.ReflTransGen (fun a b => b ∈ needs getUsedConstants mutableNames module a) s name

/-- The constant is the same in both modules. -/
def Same (name : String) : Prop :=
  (module.get? name).map (ConstantInfo.fixed (selectedName mutableNames name)) =
    (module'.get? name).map (ConstantInfo.fixed (selectedName mutableNames name))

/-- Everything of the module that the type depends on is the same in both. -/
def Meant (type : Expr) : Prop :=
  ∀ name ∈ module.keys, DependsOn getUsedConstants mutableNames module type name → Same mutableNames module module' name

/-- One fingerprint, one meaning. -/
def Sound : Prop :=
  ∀ profiles profiles',
    compiled_type_profiles getUsedConstants repr float_repr digest module names mutableNames = .ok profiles →
    compiled_type_profiles getUsedConstants repr float_repr digest module' names mutableNames = .ok profiles' →
    ∀ name found found', (name, found) ∈ profiles → (name, found') ∈ profiles' → found.sha256 = found'.sha256 →
      ∀ info info', module.get? found.line.name = some info → module'.get? found'.line.name = some info' →
        info.levelParams = info'.levelParams ∧ info.type = info'.type ∧
          Meant getUsedConstants mutableNames module module' info.type

/-- Where two declarations that a name means, and all that is found from their type, are shown alike, what is not shown is the same too. -/
def Trusted : Prop :=
  Profiled repr module names → Profiled repr module' names →
    ∀ name ∈ names, ∀ d info d' info', Means module name d info → Means module' name d' info' →
      info.levelParams = info'.levelParams → info.type = info'.type →
      (∀ c, Found getUsedConstants module mutableNames info.type c → Alike module module' mutableNames c) →
      Meant getUsedConstants mutableNames module module' info.type

end

section
variable {Expr : Type} {getUsedConstants : Expr → List String} {repr : Expr → String}
variable {float_repr : Rat → List Char} {digest : List Char → String}

theorem trusted_of_sound (hrepr : Function.Injective repr) (hdigest : Function.Injective digest)
    {names mutableNames : List String} {module module' : Module Expr}
    (hsound : Sound getUsedConstants repr float_repr digest names mutableNames module module') :
    Trusted getUsedConstants repr names mutableNames module module' := by
  intro hprofiled hprofiled' name hname d info d' info' hmeans hmeans' hlevels htype halike
  obtain ⟨profiles, h⟩ := (@exists_profiles_iff _ getUsedConstants repr float_repr digest module names mutableNames).mpr hprofiled
  obtain ⟨profiles', h'⟩ := (@exists_profiles_iff _ getUsedConstants repr float_repr digest module' names mutableNames).mpr hprofiled'
  have hfound := (mem_profiles_iff h _).mpr ⟨hname, d, info, hmeans, rfl⟩
  have hfound' := (mem_profiles_iff h' _).mpr ⟨hname, d', info', hmeans', rfl⟩
  have hrows : localTypeDependencies getUsedConstants repr module mutableNames info.type =
      localTypeDependencies getUsedConstants repr module' mutableNames info'.type := by
    rw [← htype]
    exact (localTypeDependencies_eq_iff hrepr).mpr halike
  have hsha := (@sha256_eq_iff float_repr digest hdigest (line getUsedConstants repr module mutableNames d info)
    (line getUsedConstants repr module' mutableNames d' info')).mpr ⟨hlevels, congrArg repr htype, hrows⟩
  exact (hsound profiles profiles' h h' name _ _ hfound hfound' hsha info info' hmeans.get? hmeans'.get?).2.2

theorem sound_of_trusted (hrepr : Function.Injective repr) (hdigest : Function.Injective digest)
    {names mutableNames : List String} {module module' : Module Expr}
    (htrusted : Trusted getUsedConstants repr names mutableNames module module') :
    Sound getUsedConstants repr float_repr digest names mutableNames module module' := by
  intro profiles profiles' h h' name found found' hfound hfound' hsha info info' hinfo hinfo'
  obtain ⟨hname, d, info₀, hmeans, rfl⟩ := (mem_profiles_iff h _).mp hfound
  obtain ⟨-, d', info₀', hmeans', rfl⟩ := (mem_profiles_iff h' _).mp hfound'
  obtain rfl := Option.some.inj (hmeans.get?.symm.trans hinfo)
  obtain rfl := Option.some.inj (hmeans'.get?.symm.trans hinfo')
  obtain ⟨hlevels, hprinted, hrows⟩ := (sha256_eq_iff hdigest _ _).mp hsha
  have htype : info₀.type = info₀'.type := hrepr hprinted
  have halike : localTypeDependencies getUsedConstants repr module mutableNames info₀.type =
      localTypeDependencies getUsedConstants repr module' mutableNames info₀'.type := hrows
  rw [← htype, localTypeDependencies_eq_iff hrepr] at halike
  exact ⟨hlevels, htype, htrusted (exists_profiles_iff.mp ⟨profiles, h⟩) (exists_profiles_iff.mp ⟨profiles', h'⟩)
    name hname d info₀ d' info₀' hmeans hmeans' hlevels htype halike⟩

/-- **A fingerprint vouches for a meaning just where what it does not show is the same.** -/
theorem fingerprint_exact (hrepr : Function.Injective repr) (hdigest : Function.Injective digest)
    (names mutableNames : List String) (module module' : Module Expr) :
    Sound getUsedConstants repr float_repr digest names mutableNames module module' ↔
      Trusted getUsedConstants repr names mutableNames module module' :=
  ⟨trusted_of_sound hrepr hdigest, sound_of_trusted hrepr hdigest⟩

end

/-! ### A proposition that loses its proof -/

/-- Expressions that are `Prop` or a constant, printed as the inspector prints them. -/
inductive Plain where
  | prop
  | const (name : String)
deriving DecidableEq

namespace Plain

def getUsedConstants : Plain → List String
  | prop => []
  | const name => [name]

def repr : Plain → String
  | prop => "Lean.Expr." ++ "sort (Lean.Level.zero)"
  | const name => "Lean.Expr." ++ ("const `" ++ (name ++ " []"))

theorem prop_ne_const (name : String) : repr prop ≠ repr (const name) := by
  intro h
  have hrest := congrArg String.toList ((String.append_right_inj _).mp h)
  rw [String.toList_append] at hrest
  have hhead := congrArg List.head? hrest
  simp at hhead

theorem repr_injective : Function.Injective repr := by
  intro a b h
  cases a with
  | prop => cases b with
    | prop => rfl
    | const b => exact absurd h (prop_ne_const b)
  | const a => cases b with
    | prop => exact absurd h.symm (prop_ne_const a)
    | const b =>
      have hname := (String.append_right_inj _).mp ((String.append_right_inj _).mp h)
      exact congrArg const ((String.append_left_inj _).mp hname)

end Plain

/-- `inductive Answer : Prop | yes` and a goal that asks for it. -/
def answered : Module Plain :=
  ⟨[("Answer", .inductInfo ⟨[], .prop⟩ ["Answer.yes"]), ("Answer.yes", .ctorInfo ⟨[], .const "Answer"⟩),
    ("goal", .axiomInfo ⟨[], .const "Answer"⟩)], by decide⟩

/-- The same goal where `Answer` has no constructor. -/
def unanswered : Module Plain :=
  ⟨[("Answer", .inductInfo ⟨[], .prop⟩ []), ("goal", .axiomInfo ⟨[], .const "Answer"⟩)], by decide⟩

theorem plain_fingerprint :
    Sound Plain.getUsedConstants Plain.repr (fun _ => []) String.ofList ["goal"] [] answered unanswered ↔
      Trusted Plain.getUsedConstants Plain.repr ["goal"] [] answered unanswered :=
  fingerprint_exact Plain.repr_injective (fun _ _ => String.ofList_injective) _ _ _ _

/-- A provable goal and a false one have one fingerprint. -/
theorem constructors_unseen :
    ¬Sound Plain.getUsedConstants Plain.repr (fun _ => []) String.ofList ["goal"] [] answered unanswered := by
  intro hsound
  have htrusted := trusted_of_sound Plain.repr_injective (fun _ _ => String.ofList_injective) hsound
  have hfound (c : String) (h : Found Plain.getUsedConstants answered [] (.const "Answer") c) : c = "Answer" := by
    obtain ⟨s, hs, hpath⟩ := h
    obtain rfl := List.mem_singleton.mp hs
    rcases Relation.ReflTransGen.cases_head hpath with h | ⟨b, hb, -⟩
    · exact h.symm
    · cases hb
  have hprofiled : Profiled Plain.repr answered ["goal"] := by
    refine List.forall_mem_singleton.mpr ⟨"goal", _, rfl, ?_⟩
    decide
  have hprofiled' : Profiled Plain.repr unanswered ["goal"] := by
    refine List.forall_mem_singleton.mpr ⟨"goal", _, rfl, ?_⟩
    decide
  have hmeant := htrusted hprofiled hprofiled' "goal" (List.mem_singleton_self _) "goal" _ "goal" _ rfl rfl rfl rfl
    (fun c hc => hfound c hc ▸ rfl)
  have hsame := hmeant "Answer" (by decide) ⟨"Answer", List.mem_singleton_self _, .refl⟩
  cases hsame

end LeanFlow.Profiles
