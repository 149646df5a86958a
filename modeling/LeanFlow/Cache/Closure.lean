import LeanFlow.Cache.Imports
import LeanFlow.Source.Document
import Mathlib.Data.List.Perm.Subperm

/-! The managed sources that a file imports.

`import_closure` walks from a file along its import commands and fingerprints every
managed document it comes to; a header it cannot read makes it fingerprint all of
them. A module is looked up among the documents by its dotted name. -/
namespace LeanFlow.Cache
open General Source

/-! ### Names -/

/-- `path[:-5].replace("/", ".")`. -/
def module_name (path : String) : String :=
  String.ofList ((path.toList.take (path.length - 5)).map fun c => if c = '/' then '.' else c)

/-- The file of a module: each component but the last is a directory. -/
def module_path (module : String) : String :=
  String.ofList ((module.toList.map fun c => if c = '.' then '/' else c) ++ ".lean".toList)

theorem module_name_path {module : String} (h : '/' ∉ module.toList) : module_name (module_path module) = module := by
  have hdots : module.toList.map ((fun c => if c = '/' then '.' else c) ∘ fun c => if c = '.' then '/' else c) =
      module.toList := by
    refine (List.map_congr_left fun c hc => ?_).trans (List.map_id _)
    show (if (if c = '.' then '/' else c) = '/' then '.' else if c = '.' then '/' else c) = c
    by_cases hdot : c = '.'
    · rw [if_pos hdot, if_pos rfl, hdot]
    · rw [if_neg hdot, if_neg]
      rintro rfl
      exact h hc
  have hlength : (module_path module).length - 5 =
      (module.toList.map fun c => if c = '.' then '/' else c).length := by
    rw [module_path, String.length_ofList, List.length_append]
    rfl
  rw [module_name, hlength, module_path, String.toList_ofList, List.take_left, List.map_map, hdots, String.ofList_toList]

/-! ### The walk -/

section Closure

variable (C : CharClass) (digit : Char → Bool) (digest : Text → String) (documents : Dict String SourceDocument)

/-- The documents by their dotted names; of two with one name the last counts. -/
def by_module : Dict String String := Dict.ofList (documents.keys.map fun path => (module_name path, path))

/-- Add the fingerprint of a document other than the file. -/
def fingerprint (file : String) (closure : Dict String String) (p : String × SourceDocument) :
    Except ValueError (Dict String String) :=
  if p.1 = file then .ok closure
  else do
    let text ← p.2.render C []
    .ok (closure.set p.1 (digest text))

/-- Fingerprint every managed source but the file. -/
def fingerprint_all (file : String) : Except ValueError (Dict String String) :=
  documents.items.foldlM (fingerprint C digest file) .empty

/-- The text of a document; the file has the given source instead of its own. -/
def rendered (file : String) (source : Option Text) (path : String) (document : SourceDocument) :
    Except ValueError Text :=
  match source with
  | some text => if path = file then .ok text else document.render C []
  | none => document.render C []

/-- Put a module's document on the stack, when there is one that was not seen. -/
def visit (walk : List String × List String) (module : String) : List String × List String :=
  match (by_module documents).get? module with
  | some target => if target ∈ walk.2 then walk else (target :: walk.1, target :: walk.2)
  | none => walk

/-- The walk from the paths on the stack; each turn finishes one document. -/
def walk_closure (file : String) (source : Option Text) :
    Nat → List String → List String → Dict String String → Except ValueError (Dict String String)
  | 0, _, _, closure => .ok closure
  | _ + 1, [], _, closure => .ok closure
  | fuel + 1, path :: pending, seen, closure =>
    match documents.get? path with
    | none => walk_closure file source fuel pending seen closure
    | some document => do
      let text ← rendered C file source path document
      let closure := if path = file then closure else closure.set path (digest text)
      match imported_modules C digit text with
      | .error _ => fingerprint_all C digest documents file
      | .ok modules =>
        let walk := modules.foldl (visit documents) (pending, seen)
        walk_closure file source fuel walk.1 walk.2 closure

/-- Fingerprint every managed source this file imports, directly or transitively. -/
def import_closure (file : String) (source : Option Text) : Except ValueError (Dict String String) :=
  walk_closure C digit digest documents file source (documents.items.length + 1) [file] [file] .empty

/-! ### What the walk must find -/

/-- The managed documents that a file imports, directly or transitively, and the file. -/
inductive Reached (file : String) (source : Option Text) : String → Prop
  | file : Reached file source file
  | imported {path : String} {document : SourceDocument} {text : Text} {module : String}
      (reached : Reached file source path) (managed : documents.get? path = some document)
      (has_text : rendered C file source path document = .ok text) (imports : Imports C digit text module)
      (target : module_path module ∈ documents.keys) : Reached file source (module_path module)

/-- No managed document that the file reaches shares its dotted name with a later one. -/
def Unshadowed (file : String) (source : Option Text) : Prop :=
  ∀ path, Reached C digit documents file source path → path ≠ file →
    (by_module documents).get? (module_name path) = some path

/-- The closure has fingerprints of documents other than the file. -/
def Sound (file : String) (closure : Dict String String) : Prop :=
  ∀ path value, closure.get? path = some value → path ≠ file ∧
    ∃ document text, documents.get? path = some document ∧ document.render C [] = .ok text ∧ value = digest text

variable {C digit digest documents}

/-! ### Finding modules -/

/-- A module is found among the documents only. -/
theorem managed_of_by_module {module target : String} (h : (by_module documents).get? module = some target) :
    target ∈ documents.keys := by
  obtain ⟨path, hpath, hpair⟩ := List.mem_map.mp (Dict.mem_of_get?_ofList h)
  obtain ⟨-, rfl⟩ := Prod.mk.inj hpair
  exact hpath

/-! ### Every managed source -/

theorem sound_set {file path : String} {document : SourceDocument} {text : Text} {closure : Dict String String}
    (h : Sound C digest documents file closure) (hpath : path ≠ file) (hmanaged : documents.get? path = some document)
    (htext : document.render C [] = .ok text) : Sound C digest documents file (closure.set path (digest text)) := by
  intro x value hvalue
  rw [Dict.get?_set] at hvalue
  split at hvalue
  · rename_i hx
    subst hx
    exact ⟨hpath, document, text, hmanaged, htext, (Option.some.inj hvalue).symm⟩
  · exact h x value hvalue

theorem isSome_set {closure : Dict String String} {path x : String} (value : String)
    (h : (closure.get? x).isSome = true ∨ x = path) : ((closure.set path value).get? x).isSome = true := by
  rw [Dict.get?_set]
  split
  · rfl
  · exact h.resolve_right ‹_›

theorem fold_fingerprint {file : String} {items : List (String × SourceDocument)} (hitems : items ⊆ documents.items)
    {closure result : Dict String String} (hsound : Sound C digest documents file closure)
    (h : items.foldlM (fingerprint C digest file) closure = .ok result) :
    Sound C digest documents file result ∧
      ∀ path, (closure.get? path).isSome = true ∨ (path ∈ items.map Prod.fst ∧ path ≠ file) →
        (result.get? path).isSome = true := by
  induction items generalizing closure with
  | nil =>
    obtain rfl := Except.ok.inj h
    exact ⟨hsound, fun path hpath => hpath.resolve_right fun hnil => List.not_mem_nil hnil.1⟩
  | cons p items ih =>
    obtain ⟨hp, hrest⟩ := List.cons_subset.mp hitems
    rw [List.foldlM_cons] at h
    obtain ⟨next, hnext, h⟩ := bind_eq_ok.mp h
    rw [fingerprint] at hnext
    split at hnext
    · rename_i hfile
      obtain rfl := Except.ok.inj hnext
      obtain ⟨hresult, hmem⟩ := ih hrest hsound h
      refine ⟨hresult, fun path hpath => hmem path (hpath.imp_right fun ⟨hpath, hne⟩ => ⟨?_, hne⟩)⟩
      exact (List.mem_cons.mp hpath).resolve_left fun heq => hne (heq.trans hfile)
    · rename_i hfile
      obtain ⟨text, htext, hnext⟩ := bind_eq_ok.mp hnext
      obtain rfl := Except.ok.inj hnext
      have hmanaged : documents.get? p.1 = some p.2 := (documents.get?_eq_some_iff p.1 p.2).mpr hp
      obtain ⟨hresult, hmem⟩ := ih hrest (sound_set hsound hfile hmanaged htext) h
      refine ⟨hresult, fun path hpath => hmem path ?_⟩
      rcases hpath with hold | ⟨hpath, hne⟩
      · exact Or.inl (isSome_set _ (Or.inl hold))
      · rcases List.mem_cons.mp hpath with heq | hpath
        · exact Or.inl (isSome_set _ (Or.inr heq))
        · exact Or.inr ⟨hpath, hne⟩

theorem sound_empty (file : String) : Sound C digest documents file .empty := by
  intro path value h
  cases h

/-- The broad key has every managed source but the file. -/
theorem fingerprint_all_spec {file : String} {result : Dict String String}
    (h : fingerprint_all C digest documents file = .ok result) :
    Sound C digest documents file result ∧
      ∀ path ∈ documents.keys, path ≠ file → (result.get? path).isSome = true := by
  obtain ⟨hsound, hmem⟩ := fold_fingerprint (List.Subset.refl _) (sound_empty file) h
  exact ⟨hsound, fun path hpath hne => hmem path (Or.inr ⟨hpath, hne⟩)⟩

/-! ### The stack -/

/-- What a walk knows of the paths it has seen. -/
structure Walk (C : CharClass) (digit : Char → Bool) (documents : Dict String SourceDocument) (file : String)
    (source : Option Text) (pending seen : List String) (closure : Dict String String) : Prop where
  pending_seen : pending ⊆ seen
  distinct : seen.Nodup
  managed : ∀ path ∈ seen, path ∈ documents.keys
  /-- A path that left the stack has its fingerprint, and its imports were seen. -/
  finished : ∀ path ∈ seen, path ∉ pending → (path ≠ file → (closure.get? path).isSome = true) ∧
    ∃ document text modules, documents.get? path = some document ∧
      rendered C file source path document = .ok text ∧ imported_modules C digit text = .ok modules ∧
      ∀ module ∈ modules, ∀ target, (by_module documents).get? module = some target → target ∈ seen

/-- The paths that were put on the stack. -/
theorem fold_visit (modules : List String) (walk : List String × List String) :
    ∃ added, modules.foldl (visit documents) walk = (added ++ walk.1, added ++ walk.2) ∧
      (walk.2.Nodup → (added ++ walk.2).Nodup) ∧ (∀ path ∈ added, path ∈ documents.keys) ∧
      ∀ module ∈ modules, ∀ target, (by_module documents).get? module = some target → target ∈ added ++ walk.2 := by
  induction modules generalizing walk with
  | nil => exact ⟨[], rfl, id, fun _ => nofun, fun _ => nofun⟩
  | cons module modules ih =>
    have hvisit : ∃ first, visit documents walk module = (first ++ walk.1, first ++ walk.2) ∧
        (walk.2.Nodup → (first ++ walk.2).Nodup) ∧ (∀ path ∈ first, path ∈ documents.keys) ∧
        ∀ target, (by_module documents).get? module = some target → target ∈ first ++ walk.2 := by
      unfold visit
      cases htarget : (by_module documents).get? module with
      | none => exact ⟨[], rfl, id, fun _ => nofun, fun _ => nofun⟩
      | some target =>
        dsimp only
        split
        · rename_i hseen
          refine ⟨[], rfl, id, fun _ => nofun, fun target' h => ?_⟩
          obtain rfl := Option.some.inj h
          exact hseen
        · rename_i hseen
          refine ⟨[target], rfl, fun h => List.nodup_cons.mpr ⟨hseen, h⟩, fun path hpath => ?_, fun target' h => ?_⟩
          · obtain rfl := List.mem_singleton.mp hpath
            exact managed_of_by_module htarget
          · obtain rfl := Option.some.inj h
            exact List.mem_cons_self ..
    obtain ⟨first, hfirst, hfirst_nodup, hfirst_managed, hfirst_seen⟩ := hvisit
    obtain ⟨added, hadded, hnodup, hmanaged, hseen⟩ := ih (first ++ walk.1, first ++ walk.2)
    refine ⟨added ++ first, ?_, fun h => ?_, fun path hpath => ?_, fun m hm target htarget => ?_⟩
    · rw [List.foldl_cons, hfirst, hadded, List.append_assoc, List.append_assoc]
    · rw [List.append_assoc]
      exact hnodup (hfirst_nodup h)
    · exact (List.mem_append.mp hpath).elim (hmanaged path) (hfirst_managed path)
    · rw [List.append_assoc]
      rcases List.mem_cons.mp hm with rfl | hm
      · exact List.mem_append_right _ (hfirst_seen target htarget)
      · exact hseen m hm target htarget

theorem Walk.length_le {file : String} {source : Option Text} {pending seen : List String} {closure : Dict String String}
    (h : Walk C digit documents file source pending seen closure) : seen.length ≤ documents.items.length := by
  have hsub := (List.Nodup.subperm h.distinct fun path hpath => h.managed path hpath).length_le
  rwa [Dict.keys, List.length_map] at hsub

/-- One turn finishes the document on top of the stack. -/
theorem Walk.step {file : String} {source : Option Text} {path : String} {pending seen : List String}
    {closure closure' : Dict String String} (h : Walk C digit documents file source (path :: pending) seen closure)
    {document : SourceDocument} (hmanaged : documents.get? path = some document) {text : Text}
    (htext : rendered C file source path document = .ok text) {modules added : List String}
    (hmodules : imported_modules C digit text = .ok modules)
    (hclosure : ∀ x, (closure.get? x).isSome = true ∨ (x = path ∧ x ≠ file) → (closure'.get? x).isSome = true)
    (hnodup : (added ++ seen).Nodup) (hadded : ∀ path ∈ added, path ∈ documents.keys)
    (hseen : ∀ module ∈ modules, ∀ target, (by_module documents).get? module = some target → target ∈ added ++ seen) :
    Walk C digit documents file source (added ++ pending) (added ++ seen) closure' where
  pending_seen := by
    intro x hx
    rcases List.mem_append.mp hx with hx | hx
    · exact List.mem_append_left _ hx
    · exact List.mem_append_right _ (h.pending_seen (List.mem_cons_of_mem _ hx))
  distinct := hnodup
  managed x hx := (List.mem_append.mp hx).elim (hadded x) (h.managed x)
  finished x hx hnot := by
    obtain ⟨hnew, hrest⟩ := not_or.mp (List.mem_append.not.mp hnot)
    by_cases hpath : x = path
    · subst hpath
      exact ⟨fun hne => hclosure x (Or.inr ⟨rfl, hne⟩), document, text, modules, hmanaged, htext, hmodules, hseen⟩
    · have hold : x ∉ path :: pending := by
        rw [List.mem_cons]
        exact not_or.mpr ⟨hpath, hrest⟩
      obtain ⟨hsome, document', text', modules', hmanaged', htext', hmodules', htargets⟩ :=
        h.finished x ((List.mem_append.mp hx).resolve_left hnew) hold
      refine ⟨fun hne => hclosure x (Or.inl (hsome hne)), document', text', modules', hmanaged', htext', hmodules', ?_⟩
      exact fun module hmodule target htarget => List.mem_append_right _ (htargets module hmodule target htarget)

/-- A walk ends with an empty stack, unless it came to a header it cannot read. -/
theorem walk_closure_spec {file : String} {source : Option Text} {fuel : Nat} {pending seen : List String}
    {closure result : Dict String String} (hsound : Sound C digest documents file closure)
    (h : Walk C digit documents file source pending seen closure)
    (hfuel : documents.items.length + pending.length ≤ fuel + seen.length)
    (hresult : walk_closure C digit digest documents file source fuel pending seen closure = .ok result) :
    Sound C digest documents file result ∧ ((∀ path ∈ documents.keys, path ≠ file → (result.get? path).isSome = true) ∨
      ∃ visited, seen ⊆ visited ∧ Walk C digit documents file source [] visited result) := by
  induction fuel generalizing pending seen closure with
  | zero =>
    obtain rfl := Except.ok.inj hresult
    have hlength := h.length_le
    obtain rfl : pending = [] := List.length_eq_zero_iff.mp (by omega)
    exact ⟨hsound, Or.inr ⟨seen, List.Subset.refl _, h⟩⟩
  | succ fuel ih =>
    cases pending with
    | nil =>
      obtain rfl := Except.ok.inj hresult
      exact ⟨hsound, Or.inr ⟨seen, List.Subset.refl _, h⟩⟩
    | cons path pending =>
      obtain ⟨document, hmanaged⟩ :=
        (documents.mem_keys_iff path).mp (h.managed path (h.pending_seen (List.mem_cons_self ..)))
      rw [walk_closure, hmanaged] at hresult
      obtain ⟨text, htext, hresult⟩ := bind_eq_ok.mp hresult
      dsimp only at hresult
      split at hresult
      · obtain ⟨hall, hmem⟩ := fingerprint_all_spec hresult
        exact ⟨hall, Or.inl hmem⟩
      · rename_i modules hmodules
        obtain ⟨added, hfold, hnodup, hadded, hseen⟩ := @fold_visit documents modules (pending, seen)
        rw [hfold] at hresult
        have hnext : Sound C digest documents file (if path = file then closure else closure.set path (digest text)) := by
          split
          · exact hsound
          · rename_i hne
            refine sound_set hsound hne hmanaged ?_
            cases source with
            | none => exact htext
            | some given => exact (if_neg hne).symm.trans htext
        have hclosure (x : String) (hx : (closure.get? x).isSome = true ∨ (x = path ∧ x ≠ file)) :
            ((if path = file then closure else closure.set path (digest text)).get? x).isSome = true := by
          split
          · rename_i hfile
            exact hx.resolve_right fun ⟨hpath, hne⟩ => hne (hpath.trans hfile)
          · exact isSome_set _ (hx.imp_right And.left)
        have hstep := h.step hmanaged htext hmodules hclosure (hnodup h.distinct) hadded hseen
        obtain ⟨hresult, hmem⟩ := ih hnext hstep (by simp only [List.length_append, List.length_cons] at hfuel ⊢; omega) hresult
        refine ⟨hresult, hmem.imp_right fun ⟨visited, hvisited, hwalk⟩ => ⟨visited, ?_, hwalk⟩⟩
        exact fun x hx => hvisited (List.mem_append_right _ hx)

/-! ### Nothing is missed -/

theorem walk_start {file : String} (source : Option Text) (hfile : file ∈ documents.keys) :
    Walk C digit documents file source [file] [file] .empty where
  pending_seen := List.Subset.refl _
  distinct := List.nodup_singleton file
  managed path hpath := by
    obtain rfl := List.mem_singleton.mp hpath
    exact hfile
  finished path hpath hnot := absurd hpath hnot

theorem import_closure_spec {file : String} {source : Option Text} {closure : Dict String String}
    (hfile : file ∈ documents.keys) (h : import_closure C digit digest documents file source = .ok closure) :
    Sound C digest documents file closure ∧ ((∀ path ∈ documents.keys, path ≠ file → (closure.get? path).isSome = true) ∨
      ∃ visited, [file] ⊆ visited ∧ Walk C digit documents file source [] visited closure) :=
  walk_closure_spec (sound_empty file) (walk_start source hfile)
    (Nat.add_le_add_right (Nat.le_succ _) _) h

theorem managed_of_reached {file path : String} {source : Option Text} (hfile : file ∈ documents.keys)
    (h : Reached C digit documents file source path) : path ∈ documents.keys := by
  cases h with
  | file => exact hfile
  | imported _ _ _ _ target => exact target

theorem slash_imports {source : Text} {module : String} (h : Imports C digit source module) : '/' ∉ module.toList := by
  obtain ⟨_, _, name, _, -, -, hname, rfl, -⟩ := h.parts
  rw [unquoted, String.toList_ofList]
  exact fun hmem => slash_moduleName hname (List.mem_of_mem_filter hmem)

/-- A walk that empties its stack has seen every managed document that the file reaches. -/
theorem Walk.reached {file path : String} {source : Option Text} {visited : List String} {closure : Dict String String}
    (hwalk : Walk C digit documents file source [] visited closure) (hvisited : [file] ⊆ visited)
    (hshadow : Unshadowed C digit documents file source) (hreached : Reached C digit documents file source path) :
    path ∈ visited := by
  induction hreached with
  | file => exact hvisited (List.mem_singleton_self file)
  | @imported path document text module hpath managed has_text imports target ih =>
    obtain ⟨-, document', text', modules, hmanaged, htext, hmodules, htargets⟩ :=
      hwalk.finished path ih List.not_mem_nil
    obtain rfl := Option.some.inj (managed.symm.trans hmanaged)
    obtain rfl := Except.ok.inj (has_text.symm.trans htext)
    by_cases htarget : module_path module = file
    · rw [htarget]
      exact hvisited (List.mem_singleton_self file)
    · have hfound := hshadow _ (hpath.imported managed has_text imports target) htarget
      rw [module_name_path (slash_imports imports)] at hfound
      exact htargets module (imported_complete hmodules imports) _ hfound

/-- **The closure has every managed document that the file reaches**, when none of them is shadowed. -/
theorem import_closure_complete {file : String} {source : Option Text} {closure : Dict String String}
    (hfile : file ∈ documents.keys) (hshadow : Unshadowed C digit documents file source)
    (h : import_closure C digit digest documents file source = .ok closure) {path : String}
    (hreached : Reached C digit documents file source path) (hne : path ≠ file) : (closure.get? path).isSome = true := by
  obtain ⟨-, hall | ⟨visited, hvisited, hwalk⟩⟩ := import_closure_spec hfile h
  · exact hall path (managed_of_reached hfile hreached) hne
  · exact (hwalk.finished path (hwalk.reached hvisited hshadow hreached) List.not_mem_nil).1 hne

/-- A header that cannot be read brings in every managed document. -/
theorem import_closure_broad {file : String} {source : Option Text} {closure : Dict String String}
    (hfile : file ∈ documents.keys) (hshadow : Unshadowed C digit documents file source)
    (h : import_closure C digit digest documents file source = .ok closure) {path : String} {document : SourceDocument}
    {text : Text} {e : ValueError} (hreached : Reached C digit documents file source path)
    (hmanaged : documents.get? path = some document) (htext : rendered C file source path document = .ok text)
    (herror : imported_modules C digit text = .error e) :
    ∀ other ∈ documents.keys, other ≠ file → (closure.get? other).isSome = true := by
  obtain ⟨-, hall | ⟨visited, hvisited, hwalk⟩⟩ := import_closure_spec hfile h
  · exact hall
  · obtain ⟨-, document', text', modules, hmanaged', htext', hmodules, -⟩ :=
      hwalk.finished path (hwalk.reached hvisited hshadow hreached) List.not_mem_nil
    obtain rfl := Option.some.inj (hmanaged.symm.trans hmanaged')
    obtain rfl := Except.ok.inj (htext.symm.trans htext')
    rw [herror] at hmodules
    cases hmodules

end Closure

end LeanFlow.Cache
