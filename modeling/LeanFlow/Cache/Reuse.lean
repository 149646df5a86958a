import LeanFlow.Cache.Key
import Mathlib.Logic.Relation

/-! A reused acceptance.

Workers check submissions outside the lock; what was accepted and whose key did not
change is remembered, and the acceptance of the candidate takes it instead of a second
check. `reuse_sound` says what the verifier accepted then. Its conditions name two
holes: a document shadowed by another of its dotted name, and inputs that change while
the verifier reads them and change back. -/
namespace LeanFlow.Cache
open General Goals Source

/-! ### The cache -/

/-- At most one verified result per node, with its key. -/
abbrev SubmissionCache := Dict String (String × Fields)

/-- `result.get("accepted") is True`. -/
def accepted (result : Fields) : Bool :=
  match result.get? "accepted" with
  | some (.bool value) => value
  | _ => false

namespace SubmissionCache

/-- Retain a closed independent acceptance only if its inputs stayed unchanged. -/
def remember (cache : SubmissionCache) (node : Node) (before after : String) (result : Fields) (conditional : Bool) :
    SubmissionCache :=
  if !conditional && before == after && accepted result then cache.set node.id (before, result) else cache

/-- Consume a matching acceptance once; discard stale evidence. -/
def take (cache : SubmissionCache) (node : Node) (key : String) : Option Fields × SubmissionCache :=
  match cache.get? node.id with
  | some entry => (if entry.1 = key then some entry.2 else none, cache.erase node.id)
  | none => (none, cache)

end SubmissionCache

/-! ### The session -/

/-- A check that a worker has begun. -/
structure Flight (φ : Type) where
  node : Node
  source : Text
  begun : Inputs φ
  key : String
  unresolved : Bool
  /-- What the verifier said, and what it had read. -/
  answer : Option (Fields × Inputs φ) := none

/-- The verifier accepted a source. -/
structure Acceptance (φ : Type) where
  node : Node
  source : Text
  skeleton : Bool
  begun : Inputs φ
  read : Inputs φ

structure Session (φ : Type) where
  inputs : Inputs φ
  submission_cache : SubmissionCache := .empty
  flights : List (Flight φ) := []
  /-- All that the verifier accepted. -/
  acceptances : List (Acceptance φ) := []

section Reuse

variable {φ υ : Type} (H : Host φ υ)

/-- The node, when its file is managed, and its key. -/
def keyed (i : Inputs φ) (id : String) (source : Text) : Option (Node × String) :=
  match i.dag.by_id id with
  | none => none
  | some node =>
    if node.file ∉ i.documents.keys then none
    else
      match submission_key H i node source with
      | .error _ => none
      | .ok key => some (node, key)

/-- The dependencies of a node that are not proved. -/
def unresolved (dag : Dag) (node : Node) : List String :=
  node.dependencies.filter fun dep => (dag.by_id dep).any (·.status ≠ .proved)

namespace Session

/-- The first half of `candidate_feedback`, up to the check; a job is for one revision of its node. -/
def begin_feedback (s : Session φ) (id : String) (revision : Nat) (source : Text) : Option (Session φ) :=
  match keyed H s.inputs id source with
  | none => none
  | some (node, key) =>
    if node.revision ≠ revision then none
    else some { s with flights := s.flights ++ [{
      node, source, begun := s.inputs, key, unresolved := !(unresolved s.inputs.dag node).isEmpty }] }

/-- The verifier reads its inputs and answers. -/
def answer (s : Session φ) (flight : Nat) (result : Fields) : Option (Session φ) :=
  match s.flights[flight]? with
  | none => none
  | some f =>
    if f.answer.isSome then none
    else
      let s := { s with flights := s.flights.set flight { f with answer := some (result, s.inputs) } }
      some (if accepted result then
        { s with acceptances := ⟨f.node, f.source, f.unresolved, f.begun, s.inputs⟩ :: s.acceptances } else s)

/-- The check is over, in one way or another. -/
def drop (s : Session φ) (flight : Nat) : Session φ := { s with flights := s.flights.eraseIdx flight }

/-- The second half of `candidate_feedback`. -/
def finish (s : Session φ) (flight : Nat) : Option (Session φ) :=
  match s.flights[flight]? with
  | none => none
  | some f =>
    match f.answer with
    | none => none
    | some (result, _) =>
      match keyed H s.inputs f.node.id f.source with
      | none => some (s.drop flight)
      | some (node, key) =>
        if node.revision ≠ f.node.revision ∨ key ≠ f.key then some (s.drop flight)
        else some { s.drop flight with
          submission_cache := s.submission_cache.remember node f.key key result f.unresolved }

/-- `_accept_locked` up to the check: the result that it reuses, when there is one. -/
def accept (s : Session φ) (id : String) (source : Text) : Option (Option Fields × Session φ) :=
  match keyed H s.inputs id source with
  | none => none
  | some (node, key) =>
    let taken := s.submission_cache.take node key
    some (taken.1, { s with submission_cache := taken.2 })

end Session

/-- What can happen next. -/
inductive Step (φ : Type) where
  /-- Documents, graph, policy or files become others: plans, installations, rollbacks, edits. -/
  | change (inputs : Inputs φ)
  | begin (id : String) (revision : Nat) (source : Text)
  | answer (flight : Nat) (result : Fields)
  | finish (flight : Nat)
  | drop (flight : Nat)
  | accept (id : String) (source : Text)
  /-- A new process starts from what is saved. -/
  | resume (inputs : Inputs φ)

def Session.after (s : Session φ) : Step φ → Option (Session φ)
  | .change inputs => some { s with inputs }
  | .begin id revision source => s.begin_feedback H id revision source
  | .answer flight result => s.answer flight result
  | .finish flight => s.finish H flight
  | .drop flight => some (s.drop flight)
  | .accept id source => (s.accept H id source).map Prod.snd
  | .resume inputs => some { s with inputs, submission_cache := .empty, flights := [] }

/-! ### What a reuse may rely on -/

/-- The managed documents that a source imports. -/
def Host.Imported (i : Inputs φ) (file : String) (source : Text) (path : String) : Prop :=
  Reached H.C H.digit i.documents file (some source) path

/-- What a managed document renders to. -/
def Host.text (i : Inputs φ) (path : String) : Option (Except ValueError Text) :=
  (i.documents.get? path).map fun document => document.render H.C []

/-- Lean sees the same besides the source. -/
structure SameContext (node : Node) (source : Text) (i i' : Inputs φ) : Prop where
  proofs : ∀ dep ∈ node.dependencies, ∃ d d', i.dag.by_id dep = some d ∧ i'.dag.by_id dep = some d' ∧
    d.status = .proved ∧ d'.status = .proved ∧ d.proof_sha256 = d'.proof_sha256
  axioms : i.allowed_axioms = i'.allowed_axioms
  environment : ∀ name ∈ environment_files, H.environment i.files name = H.environment i'.files name
  unmanaged : H.unmanaged i.documents.keys i.files = H.unmanaged i'.documents.keys i'.files
  imported : ∀ path, H.Imported i node.file source path ↔ H.Imported i' node.file source path
  texts : ∀ path, H.Imported i node.file source path → path ≠ node.file → H.text i path = H.text i' path

/-- The fields of a node that a check depends on. -/
structure SameNode (node node' : Node) : Prop where
  id : node.id = node'.id
  revision : node.revision = node'.revision
  name : node.name = node'.name
  file : node.file = node'.file
  statement : node.statement = node'.statement
  signature : node.signature_sha256 = node'.signature_sha256
  dependencies : node.dependencies = node'.dependencies

/-- No document that the source of the node imports is shadowed. -/
def Host.Clear (i : Inputs φ) (id : String) (source : Text) : Prop :=
  ∀ node, i.dag.by_id id = some node → Unshadowed H.C H.digit i.documents node.file (some source)

/-- Before a step no document is shadowed, and no inputs came back that the verifier read changed. -/
def Step.Sound (s : Session φ) : Step φ → Prop
  | .begin id _ source => H.Clear s.inputs id source
  | .finish flight => ∀ f, s.flights[flight]? = some f → H.Clear s.inputs f.node.id f.source ∧
      ∀ result read, f.answer = some (result, read) → SameContext H f.node f.source f.begun s.inputs →
        SameContext H f.node f.source f.begun read
  | .accept id source => H.Clear s.inputs id source
  | _ => True

/-- The sessions that sound steps lead to from one without checks. -/
def Session.Leads : Session φ → Session φ → Prop :=
  Relation.ReflTransGen fun s s' => ∃ step : Step φ, step.Sound H s ∧ s.after H step = some s'

variable {H}

/-! ### One key, one context -/

theorem keyed_eq_some {i : Inputs φ} {id : String} {source : Text} {node : Node} {key : String}
    (h : keyed H i id source = some (node, key)) :
    i.dag.by_id id = some node ∧ node.file ∈ i.documents.keys ∧ submission_key H i node source = .ok key := by
  unfold keyed at h
  split at h
  · cases h
  · split at h
    · cases h
    · rename_i hmanaged
      split at h
      · cases h
      · obtain ⟨rfl, rfl⟩ := Prod.mk.inj (Option.some.inj h)
        exact ⟨‹_›, not_not.mp hmanaged, ‹_›⟩

/-- A document that the source imports had the same text when the key was the same. -/
theorem same_text (hH : H.Faithful) {i i' : Inputs φ} {file : String} {source : Text} (hfile : file ∈ i.documents.keys)
    (hfile' : file ∈ i'.documents.keys) (himports : SameImports H i i' file file source source)
    (hclear : Unshadowed H.C H.digit i.documents file (some source)) {path : String}
    (hpath : H.Imported i file source path) (hne : path ≠ file) :
    ∃ document document' text, i.documents.get? path = some document ∧ i'.documents.get? path = some document' ∧
      document.render H.C [] = .ok text ∧ document'.render H.C [] = .ok text := by
  obtain ⟨closure, closure', hclosure, hclosure', heq⟩ := himports
  obtain ⟨value, hvalue⟩ := Option.isSome_iff_exists.mp (import_closure_complete hfile hclear hclosure hpath hne)
  obtain ⟨-, document, text, hdocument, htext, rfl⟩ := (import_closure_spec hfile hclosure).1 path value hvalue
  have hvalue' := (heq path).symm.trans hvalue
  obtain ⟨-, document', text', hdocument', htext', hdigest⟩ := (import_closure_spec hfile' hclosure').1 path _ hvalue'
  obtain rfl := hH.digest_injective hdigest
  exact ⟨document, document', text, hdocument, hdocument', htext, htext'⟩

theorem same_imported (hH : H.Faithful) {i i' : Inputs φ} {file : String} {source : Text}
    (hfile : file ∈ i.documents.keys) (hfile' : file ∈ i'.documents.keys)
    (himports : SameImports H i i' file file source source)
    (hclear : Unshadowed H.C H.digit i.documents file (some source)) {path : String}
    (hpath : H.Imported i file source path) : H.Imported i' file source path := by
  induction hpath with
  | file => exact .file
  | @imported path document text module hpath managed has_text imports target ih =>
    have htarget : module_path module ∈ i'.documents.keys := by
      by_cases hne : module_path module = file
      · rw [hne]
        exact hfile'
      · obtain ⟨_, document', _, -, hdocument', -⟩ :=
          same_text hH hfile hfile' himports hclear (hpath.imported managed has_text imports target) hne
        exact (i'.documents.mem_keys_iff _).mpr ⟨document', hdocument'⟩
    by_cases hne : path = file
    · subst hne
      obtain ⟨document', hdocument'⟩ := (i'.documents.mem_keys_iff path).mp hfile'
      refine ih.imported hdocument' ?_ imports htarget
      rw [← has_text, rendered, rendered, if_pos rfl, if_pos rfl]
    · obtain ⟨document₁, document', text', hdocument, hdocument', htext, htext'⟩ :=
        same_text hH hfile hfile' himports hclear hpath hne
      obtain rfl := Option.some.inj (managed.symm.trans hdocument)
      rw [rendered, if_neg hne] at has_text
      obtain rfl := Except.ok.inj (has_text.symm.trans htext)
      refine ih.imported hdocument' ?_ imports htarget
      rw [rendered, if_neg hne, htext']

theorem SameImports.symm {i i' : Inputs φ} {file file' : String} {source source' : Text}
    (h : SameImports H i i' file file' source source') : SameImports H i' i file' file source' source := by
  obtain ⟨closure, closure', hclosure, hclosure', heq⟩ := h
  exact ⟨closure', closure, hclosure', hclosure, fun path => (heq path).symm⟩

/-- **What one key says**: the node and all that Lean sees are the same. -/
theorem same_of_keyed (hH : H.Faithful) {i i' : Inputs φ} {id : String} {source : Text} {node node' : Node} {key : String}
    (hkeyed : keyed H i id source = some (node, key)) (hkeyed' : keyed H i' id source = some (node', key))
    (hproved : unresolved i.dag node = []) (hclear : H.Clear i id source) (hclear' : H.Clear i' id source) :
    SameNode node node' ∧ SameContext H node source i i' := by
  obtain ⟨hnode, hfile, hkey⟩ := keyed_eq_some hkeyed
  obtain ⟨hnode', hfile', hkey'⟩ := keyed_eq_some hkeyed'
  have hsame := submission_key_inj hH hkey hkey'
  have himports := hsame.imports
  have hunshadowed' := hclear' node' hnode'
  rw [← hsame.file] at himports hfile' hunshadowed'
  have hunshadowed := hclear node hnode
  refine ⟨⟨hsame.id, hsame.revision, hsame.name, hsame.file, hsame.statement, hsame.signature, hsame.dependencies⟩, ?_⟩
  exact {
    proofs := by
      intro dep hdep
      obtain ⟨d, d', hd, hd', hstatus, -, hproof⟩ := hsame.proofs dep hdep
      have hdone : d.status = .proved := by
        by_contra hopen
        have hmem : dep ∈ unresolved i.dag node := by
          refine List.mem_filter.mpr ⟨hdep, ?_⟩
          rw [hd, Option.any_some]
          exact decide_eq_true hopen
        rw [hproved] at hmem
        cases hmem
      exact ⟨d, d', hd, hd', hdone, hstatus.symm.trans hdone, hproof⟩
    axioms := hsame.axioms
    environment := hsame.environment
    unmanaged := hsame.unmanaged
    imported := fun path => ⟨same_imported hH hfile hfile' himports hunshadowed,
      same_imported hH hfile' hfile himports.symm hunshadowed'⟩
    texts := fun path hpath hne => by
      obtain ⟨document, document', text, hdocument, hdocument', htext, htext'⟩ :=
        same_text hH hfile hfile' himports hunshadowed hpath hne
      rw [Host.text, Host.text, hdocument, hdocument', Option.map_some, Option.map_some, htext, htext'] }

theorem SameContext.symm {node : Node} {source : Text} {i i' : Inputs φ} (h : SameContext H node source i i') :
    SameContext H node source i' i where
  proofs dep hdep := by
    obtain ⟨d, d', hd, hd', hproved, hproved', hproof⟩ := h.proofs dep hdep
    exact ⟨d', d, hd', hd, hproved', hproved, hproof.symm⟩
  axioms := h.axioms.symm
  environment name hname := (h.environment name hname).symm
  unmanaged := h.unmanaged.symm
  imported path := (h.imported path).symm
  texts path hpath hne := (h.texts path ((h.imported path).mpr hpath) hne).symm

theorem SameContext.trans {node : Node} {source : Text} {i i' i'' : Inputs φ} (h : SameContext H node source i i')
    (h' : SameContext H node source i' i'') : SameContext H node source i i'' where
  proofs dep hdep := by
    obtain ⟨d, d₁, hd, hd₁, hproved, -, hproof⟩ := h.proofs dep hdep
    obtain ⟨d₂, d', hd₂, hd', -, hproved', hproof'⟩ := h'.proofs dep hdep
    obtain rfl := Option.some.inj (hd₁.symm.trans hd₂)
    exact ⟨d, d', hd, hd', hproved, hproved', hproof.trans hproof'⟩
  axioms := h.axioms.trans h'.axioms
  environment name hname := (h.environment name hname).trans (h'.environment name hname)
  unmanaged := h.unmanaged.trans h'.unmanaged
  imported path := (h.imported path).trans (h'.imported path)
  texts path hpath hne := (h.texts path hpath hne).trans (h'.texts path ((h.imported path).mp hpath) hne)

/-! ### What every step keeps -/

variable (H) in
/-- A check began with this key. -/
structure Begun (node : Node) (source : Text) (begun : Inputs φ) (key : String) (skeleton : Bool) : Prop where
  keyed : keyed H begun node.id source = some (node, key)
  skeleton : skeleton = !(unresolved begun.dag node).isEmpty
  clear : H.Clear begun node.id source

variable (H) in
/-- Answers are on record, and what is remembered is one whose inputs stayed as they were. -/
structure Session.Good (s : Session φ) : Prop where
  flights : ∀ f ∈ s.flights, Begun H f.node f.source f.begun f.key f.unresolved ∧
    ∀ result read, f.answer = some (result, read) → accepted result = true →
      ⟨f.node, f.source, f.unresolved, f.begun, read⟩ ∈ s.acceptances
  remembered : ∀ id key result, s.submission_cache.get? id = some (key, result) → ∃ a ∈ s.acceptances,
    a.skeleton = false ∧ a.node.id = id ∧ Begun H a.node a.source a.begun key a.skeleton ∧
      SameContext H a.node a.source a.begun a.read

theorem good_begin {s s' : Session φ} {id : String} {revision : Nat} {source : Text} (h : s.Good H)
    (hclear : H.Clear s.inputs id source) (hstep : s.begin_feedback H id revision source = some s') : s'.Good H := by
  unfold Session.begin_feedback at hstep
  split at hstep
  · cases hstep
  · rename_i node key hkeyed
    split at hstep
    · cases hstep
    · obtain rfl := Option.some.inj hstep
      obtain rfl := Dag.id_of_by_id (keyed_eq_some hkeyed).1
      refine ⟨fun f hf => ?_, h.remembered⟩
      rcases List.mem_append.mp hf with hf | hf
      · exact h.flights f hf
      · obtain rfl := List.mem_singleton.mp hf
        exact ⟨⟨hkeyed, rfl, hclear⟩, fun _ _ hanswer => nomatch hanswer⟩

theorem good_answer {s s' : Session φ} {flight : Nat} {result : Fields} (h : s.Good H)
    (hstep : s.answer flight result = some s') : s'.Good H := by
  unfold Session.answer at hstep
  split at hstep
  · cases hstep
  · rename_i f hf
    split at hstep
    · cases hstep
    · obtain rfl := Option.some.inj hstep
      have hbegun := (h.flights f (List.mem_of_getElem? hf)).1
      split
      · refine ⟨fun g hg => ?_, fun id key result hentry => ?_⟩
        · rcases List.mem_or_eq_of_mem_set hg with hg | rfl
          · obtain ⟨hg, hlogged⟩ := h.flights g hg
            exact ⟨hg, fun result read hanswer haccepted => List.mem_cons_of_mem _ (hlogged result read hanswer haccepted)⟩
          · refine ⟨hbegun, fun result read hanswer _ => ?_⟩
            obtain ⟨rfl, rfl⟩ := Prod.mk.inj (Option.some.inj hanswer)
            exact List.mem_cons_self ..
        · obtain ⟨a, ha, hrest⟩ := h.remembered id key result hentry
          exact ⟨a, List.mem_cons_of_mem _ ha, hrest⟩
      · rename_i hrejected
        refine ⟨fun g hg => ?_, h.remembered⟩
        rcases List.mem_or_eq_of_mem_set hg with hg | rfl
        · exact h.flights g hg
        · refine ⟨hbegun, fun result read hanswer haccepted => ?_⟩
          obtain ⟨rfl, -⟩ := Prod.mk.inj (Option.some.inj hanswer)
          exact absurd haccepted hrejected

theorem good_drop {s : Session φ} (h : s.Good H) (flight : Nat) : (s.drop flight).Good H :=
  ⟨fun f hf => h.flights f (List.mem_of_mem_eraseIdx hf), h.remembered⟩

theorem get?_remember {cache : SubmissionCache} {node : Node} {before after : String} {result : Fields}
    {conditional : Bool} {id : String} {entry : String × Fields}
    (h : (cache.remember node before after result conditional).get? id = some entry) :
    (id = node.id ∧ entry = (before, result) ∧ conditional = false ∧ accepted result = true) ∨
      cache.get? id = some entry := by
  unfold SubmissionCache.remember at h
  split at h
  · rename_i hkeep
    obtain ⟨hkeep, haccepted⟩ := Bool.and_eq_true_iff.mp hkeep
    rw [Dict.get?_set] at h
    split at h
    · have hclosed := (Bool.and_eq_true_iff.mp hkeep).1
      rw [Bool.not_eq_true'] at hclosed
      exact Or.inl ⟨‹_›, (Option.some.inj h).symm, hclosed, haccepted⟩
    · exact Or.inr h
  · exact Or.inr h

theorem good_finish (hH : H.Faithful) {s s' : Session φ} {flight : Nat} (h : s.Good H)
    (hsound : (Step.finish flight).Sound H s) (hstep : s.finish H flight = some s') : s'.Good H := by
  unfold Session.finish at hstep
  split at hstep
  · cases hstep
  · rename_i f hf
    obtain ⟨hclear, hsteady⟩ := hsound f hf
    obtain ⟨hbegun, hlogged⟩ := h.flights f (List.mem_of_getElem? hf)
    split at hstep
    · cases hstep
    · rename_i result read hanswer
      split at hstep
      · obtain rfl := Option.some.inj hstep
        exact good_drop h flight
      · rename_i node key hkeyed
        split at hstep
        · obtain rfl := Option.some.inj hstep
          exact good_drop h flight
        · rename_i hsame
          obtain ⟨-, hkey⟩ := not_or.mp hsame
          obtain rfl := not_not.mp hkey
          obtain rfl := Option.some.inj hstep
          refine ⟨(good_drop h flight).flights, fun id key' result' hentry => ?_⟩
          rcases get?_remember hentry with ⟨rfl, hpair, hclosed, haccepted⟩ | hold
          · obtain ⟨rfl, rfl⟩ := Prod.mk.inj hpair
            have hproved : unresolved f.begun.dag f.node = [] := by
              have hnone := hbegun.skeleton.symm.trans hclosed
              rw [Bool.not_eq_false', List.isEmpty_iff] at hnone
              exact hnone
            obtain ⟨hnode, hcontext⟩ := same_of_keyed hH hbegun.keyed hkeyed hproved hbegun.clear hclear
            exact ⟨_, hlogged result' read hanswer haccepted, hclosed, hnode.id, hbegun,
              hsteady result' read hanswer hcontext⟩
          · exact h.remembered id key' result' hold

theorem take_eq_some {cache : SubmissionCache} {node : Node} {key : String} {result : Fields}
    (h : (cache.take node key).1 = some result) : cache.get? node.id = some (key, result) := by
  unfold SubmissionCache.take at h
  split at h
  · rename_i entry hentry
    dsimp only at h
    split at h
    · rename_i hkey
      obtain rfl := hkey
      obtain rfl := Option.some.inj h
      exact hentry
    · cases h
  · cases h

theorem get?_take {cache : SubmissionCache} {node : Node} {key id : String} {entry : String × Fields}
    (h : (cache.take node key).2.get? id = some entry) : cache.get? id = some entry := by
  unfold SubmissionCache.take at h
  split at h
  · dsimp only at h
    rw [Dict.get?_erase] at h
    split at h
    · cases h
    · exact h
  · exact h

theorem good_after (hH : H.Faithful) {s s' : Session φ} {step : Step φ} (h : s.Good H) (hsound : step.Sound H s)
    (hstep : s.after H step = some s') : s'.Good H := by
  cases step with
  | change inputs =>
    obtain rfl := Option.some.inj hstep
    exact ⟨h.flights, h.remembered⟩
  | begin id revision source => exact good_begin h hsound hstep
  | answer flight result => exact good_answer h hstep
  | finish flight => exact good_finish hH h hsound hstep
  | drop flight =>
    obtain rfl := Option.some.inj hstep
    exact good_drop h flight
  | accept id source =>
    obtain ⟨⟨reused, next⟩, haccept, rfl⟩ := Option.map_eq_some_iff.mp hstep
    unfold Session.accept at haccept
    split at haccept
    · cases haccept
    · obtain ⟨-, rfl⟩ := Prod.mk.inj (Option.some.inj haccept)
      exact ⟨h.flights, fun id key result hentry => h.remembered id key result (get?_take hentry)⟩
  | resume inputs =>
    obtain rfl := Option.some.inj hstep
    exact ⟨fun f hf => (List.not_mem_nil hf).elim, fun id key result hentry => nomatch hentry⟩

theorem good_of_leads (hH : H.Faithful) {s s' : Session φ} (h : s.Good H) (hrun : s.Leads H s') : s'.Good H := by
  induction hrun with
  | refl => exact h
  | tail _ hstep ih =>
    obtain ⟨step, hsound, hstep⟩ := hstep
    exact good_after hH ih hsound hstep

/-! ### The reuse -/

variable (H) in
/-- A closure has every document that the source imports, and every other one when a header cannot be read. -/
structure Covers (i : Inputs φ) (file : String) (source : Text) (closure : Dict String String) : Prop where
  imported : ∀ path, H.Imported i file source path → path ≠ file → ∃ document text,
    i.documents.get? path = some document ∧ document.render H.C [] = .ok text ∧ closure.get? path = some (H.digest text)
  broad : ∀ path document text e, H.Imported i file source path → i.documents.get? path = some document →
    rendered H.C file (some source) path document = .ok text → imported_modules H.C H.digit text = .error e →
      ∀ other ∈ i.documents.keys, other ≠ file → (closure.get? other).isSome = true

theorem import_closure_covers {i : Inputs φ} {file : String} {source : Text} {closure : Dict String String}
    (hfile : file ∈ i.documents.keys) (hclear : Unshadowed H.C H.digit i.documents file (some source))
    (h : import_closure H.C H.digit H.digest i.documents file (some source) = .ok closure) : Covers H i file source closure where
  imported path hpath hne := by
    obtain ⟨value, hvalue⟩ := Option.isSome_iff_exists.mp (import_closure_complete hfile hclear h hpath hne)
    obtain ⟨-, document, text, hdocument, htext, rfl⟩ := (import_closure_spec hfile h).1 path value hvalue
    exact ⟨document, text, hdocument, htext, hvalue⟩
  broad path document text e hpath hdocument htext herror :=
    import_closure_broad hfile hclear h hpath hdocument htext herror

end Reuse

/-! ### One node and the module it imports -/

/-- Tables of ASCII, texts as their own digests, and no files besides the documents. -/
def sampleHost : Host Unit Unit where
  C := .ascii
  digit := Char.isDigit
  digest := String.ofList
  float_repr _ := []
  read_file _ _ := none
  lean_environment_generation _ _ := ""
  unmanaged _ _ := ()

theorem sampleHost_faithful : sampleHost.Faithful where
  digest_injective _ _ := String.ofList_injective
  generation_changes _ := rfl

def sampleNode : Node where
  id := "n"
  name := "t"
  file := "M.lean"
  statement := "theorem t : x = 1"
  holes := [0]

def sampleSource : Text := "import A.B\ntheorem t : x = 1 := rfl".toList

/-- The node's file, the file of the module, and perhaps one more. -/
def sampleDocuments (module : String) (more : List String) : Dict String SourceDocument :=
  Dict.ofList ([("A/B.lean", { path := "A/B.lean", baseline := module.toList }),
    ("M.lean", { path := "M.lean", baseline := "import A.B\ntheorem t : x = 1 := sorry".toList })] ++
    more.map fun path => (path, { path, baseline := [] }))

def sampleInputs (module : String) (more : List String) : Inputs Unit :=
  ⟨sampleDocuments module more, { nodes := [sampleNode], roots := ["n"] }, [], 0, ()⟩

def sampleResult : Fields := [("accepted", .bool true)]

def sampleKey (module : String) (more : List String) (closure : Dict String String) : String :=
  String.ofList ((Json.obj (key_fields sampleHost (sampleInputs module more) sampleNode sampleSource [] closure)).sort_keys.dumps
    sampleHost.float_repr)

/-- The session after a check of the source was begun, answered and finished. -/
def sampleSession (module : String) (more : List String) (closure : Dict String String) : Session Unit where
  inputs := sampleInputs module more
  submission_cache := Dict.empty.set "n" (sampleKey module more closure, sampleResult)
  acceptances := [⟨sampleNode, sampleSource, false, sampleInputs module more, sampleInputs module more⟩]

def sampleFlight (module : String) (more : List String) (closure : Dict String String) : Flight Unit :=
  { node := sampleNode, source := sampleSource, begun := sampleInputs module more, key := sampleKey module more closure, unresolved := false }

section Sample

variable {module : String} {more : List String} {closure : Dict String String}

theorem sample_keyed (hfile : "M.lean" ∈ (sampleDocuments module more).keys)
    (h : import_closure .ascii Char.isDigit String.ofList (sampleDocuments module more) "M.lean" (some sampleSource) =
      .ok closure) :
    keyed sampleHost (sampleInputs module more) "n" sampleSource = some (sampleNode, sampleKey module more closure) := by
  have hnode : (sampleInputs module more).dag.by_id "n" = some sampleNode := rfl
  have hkey : submission_key sampleHost (sampleInputs module more) sampleNode sampleSource =
      .ok (sampleKey module more closure) := by
    show (import_closure .ascii Char.isDigit String.ofList (sampleDocuments module more) "M.lean" (some sampleSource)).mapError
      Unkeyed.value_error >>= _ = _
    rw [h]
    rfl
  have hmanaged : ¬sampleNode.file ∉ (sampleInputs module more).documents.keys := not_not.mpr hfile
  unfold keyed
  rw [hnode]
  dsimp only
  rw [if_neg hmanaged, hkey]

theorem sample_begin (hkeyed : keyed sampleHost (sampleInputs module more) "n" sampleSource =
      some (sampleNode, sampleKey module more closure)) :
    Session.after sampleHost { inputs := sampleInputs module more } (.begin "n" 0 sampleSource) =
      some { inputs := sampleInputs module more, flights := [sampleFlight module more closure] } := by
  show Session.begin_feedback sampleHost _ "n" 0 sampleSource = _
  unfold Session.begin_feedback
  rw [hkeyed]
  rfl

theorem sample_answer : Session.after sampleHost
      { inputs := sampleInputs module more, flights := [sampleFlight module more closure] } (.answer 0 sampleResult) =
    some { inputs := sampleInputs module more
           flights := [{ sampleFlight module more closure with answer := some (sampleResult, sampleInputs module more) }]
           acceptances := [⟨sampleNode, sampleSource, false, sampleInputs module more, sampleInputs module more⟩] } := rfl

theorem sample_finish (hkeyed : keyed sampleHost (sampleInputs module more) "n" sampleSource =
      some (sampleNode, sampleKey module more closure)) :
    Session.after sampleHost
      { inputs := sampleInputs module more
        flights := [{ sampleFlight module more closure with answer := some (sampleResult, sampleInputs module more) }]
        acceptances := [⟨sampleNode, sampleSource, false, sampleInputs module more, sampleInputs module more⟩] } (.finish 0) =
      some (sampleSession module more closure) := by
  have hremember : SubmissionCache.remember .empty sampleNode (sampleKey module more closure)
      (sampleKey module more closure) sampleResult false =
        Dict.empty.set "n" (sampleKey module more closure, sampleResult) := by
    unfold SubmissionCache.remember
    rw [beq_self_eq_true]
    rfl
  have hsame : ¬(sampleNode.revision ≠ sampleNode.revision ∨ sampleKey module more closure ≠ sampleKey module more closure) :=
    not_or.mpr ⟨not_not.mpr rfl, not_not.mpr rfl⟩
  simp only [Session.after, Session.finish, List.getElem?_cons_zero, sampleFlight]
  rw [show sampleNode.id = "n" from rfl, hkeyed]
  dsimp only
  rw [if_neg hsame, hremember]
  rfl

theorem sample_accept (hkeyed : keyed sampleHost (sampleInputs module more) "n" sampleSource =
      some (sampleNode, sampleKey module more closure)) {s : Session Unit} (hinputs : s.inputs = sampleInputs module more)
    (hcache : s.submission_cache.get? "n" = some (sampleKey module more closure, sampleResult)) :
    ∃ s', s.accept sampleHost "n" sampleSource = some (some sampleResult, s') := by
  unfold Session.accept
  rw [hinputs, hkeyed]
  dsimp only
  unfold SubmissionCache.take
  rw [show sampleNode.id = "n" from rfl, hcache]
  dsimp only
  rw [if_pos rfl]
  exact ⟨_, rfl⟩

end Sample

def sampleClosure : Dict String String := Dict.empty.set "A/B.lean" "def x := 1"

theorem sample_clear : sampleHost.Clear (sampleInputs "def x := 1" []) "n" sampleSource := by
  intro node hnode path hpath hne
  obtain rfl := Option.some.inj hnode
  have hall : ∀ path ∈ (sampleDocuments "def x := 1" []).keys, path ≠ "M.lean" →
      (by_module (sampleDocuments "def x := 1" [])).get? (module_name path) = some path := by decide +kernel
  exact hall path (managed_of_reached (by decide +kernel) hpath) hne

theorem sample_closure : import_closure .ascii Char.isDigit String.ofList (sampleDocuments "def x := 1" []) "M.lean"
    (some sampleSource) = .ok sampleClosure := by decide +kernel

theorem sample_leads : Session.Leads sampleHost { inputs := sampleInputs "def x := 1" [] }
    (sampleSession "def x := 1" [] sampleClosure) := by
  have hkeyed := sample_keyed (by decide +kernel) sample_closure
  refine .head ⟨.begin "n" 0 sampleSource, sample_clear, sample_begin hkeyed⟩ (.head ⟨.answer 0 sampleResult, trivial, sample_answer⟩
    (.single ⟨.finish 0, ?_, sample_finish hkeyed⟩))
  intro f hf
  obtain rfl := Option.some.inj hf
  refine ⟨sample_clear, fun result read hanswer hcontext => ?_⟩
  obtain ⟨-, rfl⟩ := Prod.mk.inj (Option.some.inj hanswer)
  exact hcontext

theorem sample_imports : Imports .ascii Char.isDigit sampleSource "A.B" where
  parts := ⟨[], [' '], "A.B".toList, "\ntheorem t : x = 1 := rfl".toList, rfl, by decide, by decide +kernel, by decide +kernel,
    [], [' '], "A.B\ntheorem t : x = 1 := rfl".toList, by decide +kernel, rfl, rfl, rfl, rfl, rfl⟩

/-- The source imports `A/B.lean` all the same. -/
theorem shadowed_imported (module : String) :
    sampleHost.Imported (sampleInputs module ["A.B.lean"]) "M.lean" sampleSource "A/B.lean" := by
  have hpath : module_path "A.B" = "A/B.lean" := by decide
  have hmanaged : (sampleDocuments module ["A.B.lean"]).get? "M.lean" =
      some { path := "M.lean", baseline := "import A.B\ntheorem t : x = 1 := sorry".toList } := rfl
  have htarget : module_path "A.B" ∈ (sampleDocuments module ["A.B.lean"]).keys := by
    rw [hpath]
    exact List.mem_cons_self ..
  rw [← hpath]
  exact .imported .file hmanaged rfl sample_imports htarget

def shadowClosure : Dict String String := Dict.empty.set "A.B.lean" ""

end LeanFlow.Cache
