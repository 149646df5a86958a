import LeanFlow.Libraries.Install
import LeanFlow.Transactions.Restore

/-! What a stopped installation leaves for the next resume.

Until the last persist the durable documents are the old ones, so a resume accepts
the sources just when the protected configuration still has its old text. After it
they hold the text that was read again. -/
namespace LeanFlow.Libraries
open General Goals Source Transactions

/-- The configuration that is a document. -/
def lakefile : String := "lakefile.lean"

/-- A project before an installation. -/
structure Project where
  C : CharClass
  base : Documents
  /-- The document of the configuration, and its text. -/
  document : SourceDocument
  before : Text
  dag : Dag
  planning : Option String
  max_nodes : Nat

namespace Project
variable (p : Project)

/-- The documents with the configuration read again. -/
def reread (text : Text) : Documents := p.base.set lakefile { p.document with baseline := text }

/-- The canonical source of one document. -/
def Current (files : Dict String Text) (path : String) (document : SourceDocument) : Prop :=
  document.path = path ∧ ∃ text, document.render p.C [] = .ok text ∧ files.get? path = some text

/-- The state at the start: everything is persisted, and every source is as documented. -/
structure Settled (w : World) : Prop where
  journal : w.disk.journal = none
  alone : w.publishing = none
  documents : w.documents = p.base
  dag : w.dag = p.dag
  planning : w.state.planning_request = p.planning
  saved_dag : w.disk.state_json.dag = p.dag
  saved_planning : w.disk.state_json.planning_request = p.planning
  checkpoint : w.disk.state_json.source_checkpoint = some p.base
  written : p.base ∈ w.disk.checkpoints
  stored : ∀ documents, w.stored = some documents → documents ∈ w.disk.checkpoints
  loads : p.dag.validate (max 128 p.dag.nodes.length) = .ok ()
  bounded : p.dag.validate p.max_nodes = .ok ()
  lean : ∀ path document, p.base.get? path = some document → lean_suffix path = true
  sources : ∀ path document, p.base.get? path = some document → p.Current w.disk.files path document
  configured : p.base.get? lakefile = some p.document
  before : w.disk.files.get? lakefile = some p.before

/-- Documents the run may hold: the old ones, or those with the configuration as it is now. -/
def Known (files : Dict String Text) (documents : Documents) : Prop :=
  documents = p.base ∨
    ∃ text, text ≠ p.before ∧ documents = p.reread text ∧ files.get? lakefile = some text

/-- What holds wherever an installation has got to. -/
structure Site (w : World) : Prop where
  journal : w.disk.journal = none
  alone : w.publishing = none
  dag : w.dag = p.dag
  planning : w.state.planning_request = p.planning
  saved_dag : w.disk.state_json.dag = p.dag
  saved_planning : w.disk.state_json.planning_request = p.planning
  stored : ∀ documents, w.stored = some documents → documents ∈ w.disk.checkpoints
  others : ∀ path document, path ≠ lakefile → p.base.get? path = some document →
    p.Current w.disk.files path document
  documents : p.Known w.disk.files w.documents
  checkpoint : ∃ documents, w.disk.state_json.source_checkpoint = some documents ∧
    documents ∈ w.disk.checkpoints ∧ p.Known w.disk.files documents

/-- As long as files are written, the documents are the old ones. -/
structure Early (w : World) : Prop extends Site p w where
  unread : w.documents = p.base
  unsaved : w.disk.state_json.source_checkpoint = some p.base

end Project

open Project

variable {p : Project} {w : World}

theorem Project.Settled.early (h : p.Settled w) : Early p w where
  journal := h.journal
  alone := h.alone
  dag := h.dag
  planning := h.planning
  saved_dag := h.saved_dag
  saved_planning := h.saved_planning
  stored := h.stored
  others path document _ := h.sources path document
  documents := Or.inl h.documents
  checkpoint := ⟨p.base, h.checkpoint, h.written, Or.inl rfl⟩
  unread := h.documents
  unsaved := h.checkpoint

/-! ### Writing files -/

/-- A file that is no protected document, but for the configuration itself. -/
def Outside (path : String) : Prop := lean_suffix path = false ∨ path = lakefile

theorem outside_config {name : String} (h : name ∈ config_names) : Outside name := by
  simp only [config_names, List.mem_cons, List.not_mem_nil, or_false] at h
  rcases h with rfl | rfl
  · exact Or.inl (by decide)
  · exact Or.inr rfl

theorem outside_manifest : Outside manifest_name := Or.inl (by decide)

theorem outside_toolchain : Outside toolchain_name := Or.inl (by decide)

/-- Only files outside the other documents change. -/
theorem Project.Early.put (hlean : ∀ path document, p.base.get? path = some document → lean_suffix path = true)
    (h : Early p w) {path : String} (hpath : Outside path) (content : Option Text) : Early p (w.put path content) := by
  have hput (w : World) : ∃ files, w.put path content = { w with disk := { w.disk with files := files } } ∧
      ∀ other, other ≠ path → files.get? other = w.disk.files.get? other := by
    cases content with
    | none => exact ⟨_, rfl, fun other hne => by rw [Dict.get?_erase, if_neg hne]⟩
    | some content => exact ⟨_, rfl, fun other hne => Dict.get?_set_ne _ _ hne⟩
  obtain ⟨files, hw, hfiles⟩ := hput w
  rw [hw]
  have hknown {documents : Documents} (hdocuments : documents = p.base) : p.Known files documents := Or.inl hdocuments
  refine { h with
    others := fun other document hne hother => ?_
    documents := hknown h.unread
    checkpoint := ?_ }
  · have hdifferent : other ≠ path := by
      rintro rfl
      rcases hpath with hpath | hpath
      · rw [hlean _ _ hother] at hpath
        cases hpath
      · exact hne hpath
    obtain ⟨hpath, text, htext, hfile⟩ := h.others other document hne hother
    exact ⟨hpath, text, htext, (hfiles other hdifferent).trans hfile⟩
  · obtain ⟨documents, hsaved, hwritten, -⟩ := h.checkpoint
    exact ⟨documents, hsaved, hwritten, hknown (Option.some.inj (hsaved.symm.trans h.unsaved))⟩

/-! ### The installation -/

section Install

variable {ν : Type} [DecidableEq ν] {P : World → Prop} {lake : Lake ν} {fails : Step → Bool}

theorem failing_keeps (b : Bool) (e : Raised) : Prog.Keeps Eq P (failing b e) :=
  .ite (.raise (Prog.stable_eq P) e) (.ret (Prog.stable_eq P) _)

theorem checked_keeps {α : Type} (result : Except ValueError α) : Prog.Keeps Eq P (checked result) :=
  .ofExcept (Prog.stable_eq P) _

/-- What a check returned, it found. -/
theorem checked_outline {α : Type} {Q : α → World → Prop} {result : Except ValueError α}
    (hQ : ∀ a, result = .ok a → ∀ w, P w → Q a w) : Prog.Outline Eq P P (checked result) Q fun _ => P := by
  cases result with
  | error e => exact .raise (Prog.stable_eq P).self fun _ h => h
  | ok a => exact .ret (Prog.stable_eq P).self (hQ a rfl)

theorem read_bytes_keeps (path : String) : Prog.Keeps Eq P (read_bytes path) := by
  refine .bind Eq.refl (.get (Prog.stable_eq P)) fun w => ?_
  cases w.disk.files.get? path with
  | none => exact .raise (Prog.stable_eq P) _
  | some content => exact .ret (Prog.stable_eq P) _

theorem require_keeps {c : Prop} [Decidable c] (e : Raised) : Prog.Keeps Eq P (if c then .raise e else pure ()) :=
  .ite (.raise (Prog.stable_eq P) e) (.ret (Prog.stable_eq P) _)

variable (hlean : ∀ path document, p.base.get? path = some document → lean_suffix path = true)
include hlean

theorem put_keeps {path : String} (hpath : Outside path) (content : Option Text) :
    Prog.Keeps Eq (Early p) (Prog.modify (World.put path content) : Controller Unit) :=
  .modify (Prog.stable_eq _) fun _ h => h.put hlean hpath content

theorem write_bytes_keeps {path : String} (hpath : Outside path) (content : Text) :
    Prog.Keeps Eq (Early p) (write_bytes fails path content) :=
  .bind Eq.refl (failing_keeps _ _) fun _ => .bind Eq.refl (put_keeps hlean hpath (some [])) fun _ =>
    .bind Eq.refl (failing_keeps _ _) fun _ => put_keeps hlean hpath (some content)

theorem restore_bytes_keeps {path : String} (hpath : Outside path) (content : Option Text) :
    Prog.Keeps Eq (Early p) (restore_bytes fails path content) := by
  cases content with
  | none => exact put_keeps hlean hpath none
  | some content => exact write_bytes_keeps hlean hpath content

variable {name : String} (hname : name ∈ config_names)
include hname

theorem prepare_update_keeps (updated : Text) (before : Layout) :
    Prog.Keeps Eq (Early p) (prepare_update fails name updated before) := by
  refine .bind Eq.refl (failing_keeps _ _) fun _ => ?_
  refine .bind Eq.refl (write_bytes_keeps hlean (outside_config hname) updated) fun _ => ?_
  refine .bind Eq.refl ?_ fun _ => failing_keeps _ _
  exact .ite (write_bytes_keeps hlean outside_manifest _) (.ret (Prog.stable_eq _) _)

theorem roll_back_keeps (before : Layout) (update_attempted : Bool) :
    Prog.Keeps Eq (Early p) (roll_back fails name before update_attempted) :=
  .bind Eq.refl (restore_bytes_keeps hlean (outside_config hname) _) fun _ =>
    .bind Eq.refl (restore_bytes_keeps hlean outside_manifest _) fun _ =>
      .bind Eq.refl (restore_bytes_keeps hlean outside_toolchain _) fun _ => .ret (Prog.stable_eq _) _

/-- Lake itself writes nothing else. -/
theorem setLayout_early (layout : Layout) (h : Early p w) : Early p (World.setLayout name layout w) :=
  ((h.put hlean (outside_config hname) _).put hlean outside_manifest _).put hlean outside_toolchain _

theorem run_update_keeps (updated : Text) (before : Layout) (previous : Dict String (Package ν))
    (entries : List Library) : Prog.Keeps Eq (Early p) (run_update lake fails name updated before previous entries) := by
  refine .bind Eq.refl (.get (Prog.stable_eq _)) fun w => ?_
  refine .bind Eq.refl (.modify (Prog.stable_eq _) fun w h => setLayout_early hlean hname _ h) fun _ => ?_
  refine .bind Eq.refl (.ite (.ret (Prog.stable_eq _) _) (.raise (Prog.stable_eq _) _)) fun _ => ?_
  refine .bind Eq.refl (failing_keeps _ _) fun _ => ?_
  refine .bind Eq.refl (read_bytes_keeps _) fun config => .bind Eq.refl (read_bytes_keeps _) fun toolchain => ?_
  refine .bind Eq.refl (require_keeps _) fun _ => .bind Eq.refl (read_bytes_keeps _) fun current => ?_
  exact .bind Eq.refl (checked_keeps _) fun packages => .bind Eq.refl (checked_keeps _) fun _ =>
    .ret (Prog.stable_eq _) _

theorem attempt_update_keeps (updated : Text) (before : Layout) (previous : Dict String (Package ν))
    (entries : List Library) :
    Prog.Keeps Eq (Early p) (attempt_update lake fails name updated before previous entries) := by
  refine .bind Eq.refl (Prog.Keeps.handle Eq.refl ?_ fun e => ?_) fun failed => ?_
  · exact .bind Eq.refl (prepare_update_keeps hlean hname updated before) fun _ => .ret (Prog.stable_eq _) _
  · exact .bind Eq.refl (roll_back_keeps hlean hname before false) fun _ => .ret (Prog.stable_eq _) _
  · cases failed with
    | some result => exact .ret (Prog.stable_eq _) _
    | none => exact Prog.Keeps.handle Eq.refl (run_update_keeps hlean hname updated before previous entries) fun _ =>
        roll_back_keeps hlean hname before true

omit hname
omit [DecidableEq ν] hlean in
theorem configuration_name {files : Dict String Text} {r : String × Text × Dict String (String × String)}
    (h : configuration lake files = .ok r) : r.1 ∈ config_names := by
  unfold configuration at h
  split at h
  · rename_i name original hcandidates
    have hmem : (name, original) ∈ config_names.filterMap fun name => (files.get? name).map (name, ·) := by
      rw [hcandidates]
      exact List.mem_singleton_self _
    obtain ⟨other, hother, hfound⟩ := List.mem_filterMap.mp hmem
    obtain ⟨content, -, hpair⟩ := Option.map_eq_some_iff.mp hfound
    obtain ⟨rfl, rfl⟩ := Prod.mk.inj hpair
    split at h
    · cases h
    · cases hknown : lake.requirements other content with
      | error e =>
        rw [hknown] at h
        cases h
      | ok known =>
        rw [hknown] at h
        cases h
        exact hother
  · cases h

theorem install_locked_keeps (entries : List Library) :
    Prog.Keeps Eq (Early p) (install_locked lake fails entries) := by
  refine .bind Eq.refl (.get (Prog.stable_eq _)) fun w => ?_
  refine Prog.Outline.bind (Q := fun r w => Early p w ∧ r.1 ∈ config_names) Eq.refl
    (checked_outline fun r hr w h => ⟨h, configuration_name hr⟩) fun r => ?_
  obtain ⟨name, original, known⟩ := r
  refine fun w' h => Prog.Keeps.bind Eq.refl (require_keeps _) (fun _ => ?_) w' h.1
  refine .bind Eq.refl (checked_keeps _) fun previous => .bind Eq.refl (checked_keeps _) fun added => ?_
  exact .ite (.ret (Prog.stable_eq _) _) (attempt_update_keeps hlean h.2 _ _ _ _)

theorem install_libraries_keeps (entries : List Library) :
    Prog.Keeps Eq (Early p) (install_libraries lake fails entries) := by
  refine Prog.Keeps.handle Eq.refl ?_ fun _ => .ret (Prog.stable_eq _) _
  exact .bind Eq.refl (failing_keeps _ _) fun _ => .bind Eq.refl (failing_keeps _ _) fun _ =>
    install_locked_keeps hlean entries

end Install

/-! ### The records -/

section Record

variable {fails : Step → Bool}

theorem read_bytes_outline {I P : World → Prop} (hP : ∀ w, P w → I w) (path : String) :
    Prog.Outline Eq I P (read_bytes path) (fun content w => P w ∧ w.disk.files.get? path = some content)
      fun _ => I := by
  have hkept : Prog.Kept Eq I P := ⟨Prog.stable_eq _, hP⟩
  refine .bind (Q := fun w w' => P w' ∧ w' = w) Eq.refl (.get hkept fun w w' h hw => ⟨hw ▸ h, hw.symm⟩) fun w => ?_
  have hread : Prog.Kept Eq I fun w' => P w' ∧ w' = w := ⟨Prog.stable_eq _, fun w' h => hP w' h.1⟩
  cases hfile : w.disk.files.get? path with
  | none => exact .raise hread fun w' h => hP w' h.1
  | some content => exact .ret hread fun w' h => ⟨h.1, by rw [h.2, hfile]⟩

/-- A configuration file with the contents it had; only the Lean one is a document. -/
def Project.Listed (p : Project) (item : String × Text) : Prop :=
  item = (lakefile, p.before) ∨ lean_suffix item.1 = false

theorem Project.Known.get? {files : Dict String Text} {documents : Documents} (h : p.Known files documents)
    (hconfigured : p.base.get? lakefile = some p.document) {document : SourceDocument}
    (hdocument : documents.get? lakefile = some document) (text : Text) :
    { document with baseline := text } = { p.document with baseline := text } := by
  rcases h with rfl | ⟨other, -, rfl, -⟩
  · rw [Option.some.inj (hdocument.symm.trans hconfigured)]
  · rw [reread, Dict.get?_set_self] at hdocument
    rw [← Option.some.inj hdocument]

theorem Project.Known.set {files : Dict String Text} {documents : Documents} (h : p.Known files documents)
    (text : Text) : documents.set lakefile { p.document with baseline := text } = p.reread text := by
  rcases h with rfl | ⟨other, -, rfl, -⟩
  · rfl
  · exact Dict.set_set ..

/-- A document that is not the configuration is as before. -/
theorem Project.Known.other {files : Dict String Text} {documents : Documents} (h : p.Known files documents)
    {path : String} (hpath : path ≠ lakefile) : documents.get? path = p.base.get? path := by
  rcases h with rfl | ⟨other, -, rfl, -⟩
  · rfl
  · exact Dict.get?_set_ne _ _ hpath

/-- The configuration is read again. -/
theorem Project.Site.reread (h : Site p w) {text : Text} (hfile : w.disk.files.get? lakefile = some text)
    (hne : text ≠ p.before) : Site p { w with documents := p.reread text } :=
  { h with documents := Or.inr ⟨text, hne, rfl, hfile⟩ }

theorem record_configuration_keeps (hconfigured : p.base.get? lakefile = some p.document)
    (hlean : ∀ path document, p.base.get? path = some document → lean_suffix path = true)
    {item : String × Text} (hitem : p.Listed item) : Prog.Keeps Eq (Site p) (record_configuration fails item) := by
  have hkept {P : World → Prop} : Prog.Kept Eq (Site p) fun w => Site p w ∧ P w := ⟨Prog.stable_eq _, fun _ h => h.1⟩
  refine Prog.Outline.bind Eq.refl (read_bytes_outline (fun _ h => h) item.1) fun content => ?_
  refine .ite (fun _ => .ret hkept fun _ h => h.1) fun hchanged => ?_
  refine .bind (Q := fun _ w => Site p w ∧ w.disk.files.get? item.1 = some content) Eq.refl ?_ fun _ => ?_
  · exact .ite (fun _ => .raise hkept fun _ h => h.1) fun _ => .ret hkept fun _ h => h
  refine .bind (Q := fun _ w => Site p w ∧ w.disk.files.get? item.1 = some content) Eq.refl
    (.modify hkept hkept fun w h => ⟨{ h.1 with }, h.2⟩) fun _ => ?_
  refine .bind (Q := fun w w' => Site p w' ∧ w'.disk.files.get? item.1 = some content ∧ w' = w) Eq.refl
    (.get hkept fun w w' h hw => ⟨hw ▸ h.1, hw ▸ h.2, hw.symm⟩) fun w => ?_
  cases hdocument : w.documents.get? item.1 with
  | none => exact .ret hkept fun _ h => h.1
  | some document =>
    refine .bind Eq.refl (read_bytes_outline (fun _ h => h.1) item.1) fun text => ?_
    have hread : Prog.Kept Eq (Site p) fun w' => (Site p w' ∧ w'.disk.files.get? item.1 = some content ∧
        w' = w) ∧ w'.disk.files.get? item.1 = some text := ⟨Prog.stable_eq _, fun _ h => h.1.1⟩
    refine .modify (Q := fun _ => Site p) hread (Prog.stable_eq _).self fun w' h => ?_
    obtain ⟨⟨hsite, hcontent, rfl⟩, htext⟩ := h
    have hsame : text = content := Option.some.inj (htext.symm.trans hcontent)
    rcases hitem with rfl | hitem
    · -- the protected configuration: its document is the only one that changes
      rw [hsite.documents.get? hconfigured hdocument, hsite.documents.set]
      exact hsite.reread htext (hsame ▸ hchanged)
    · have hne : item.1 ≠ lakefile := by
        rintro heq
        rw [heq] at hitem
        exact absurd hitem (by decide)
      rw [hsite.documents.other hne] at hdocument
      exact absurd (hlean _ _ hdocument) (by rw [hitem]; decide)

end Record

/-! ### Persisting -/

section Persist

/-- The live state is what the next publication may write. -/
structure Project.Ready (p : Project) (w : World) : Prop extends Site p w where
  live_dag : w.state.dag = p.dag
  live : ∃ documents, w.state.source_checkpoint = some documents ∧ documents ∈ w.disk.checkpoints ∧
    p.Known w.disk.files documents

theorem Project.Site.checkpoint_written (h : Site p w) :
    Site p w.checkpoint ∧ w.checkpoint.documents ∈ w.checkpoint.disk.checkpoints := by
  unfold World.checkpoint
  split
  · exact ⟨h, ‹_›⟩
  · obtain ⟨documents, hsaved, hwritten, hknown⟩ := h.checkpoint
    refine ⟨{ h with
      stored := fun d hd => List.mem_cons_of_mem _ (h.stored d hd)
      checkpoint := ⟨documents, hsaved, List.mem_cons_of_mem _ hwritten, hknown⟩ }, List.mem_cons_self ..⟩

theorem store_documents_outline (fails : StorePart → Bool) : Prog.Outline Eq (Site p) (Site p) (store_documents fails)
    (fun _ w => Site p w ∧ w.stored = some w.documents) fun _ => Site p := by
  have hkept {P : World → Prop} : Prog.Kept Eq (Site p) fun w => Site p w ∧ P w := ⟨Prog.stable_eq _, fun _ h => h.1⟩
  refine .bind (Q := fun w w' => Site p w' ∧ w' = w) Eq.refl
    (.get (Prog.stable_eq _).self fun w w' h hw => ⟨hw ▸ h, hw.symm⟩) fun w => ?_
  refine .ite (fun _ => ?_) fun hsame => .ret hkept fun w' h => ⟨h.1, ?_⟩
  · refine Prog.Outline.mono (P := Site p) ?_ (fun _ h => h.1) (fun _ _ h => h) fun _ _ h => h
    refine .bind Eq.refl (failing_keeps _ _) fun _ => ?_
    refine .bind (Q := fun _ w => Site p w ∧ w.documents ∈ w.disk.checkpoints) Eq.refl
      (.modify (Prog.stable_eq _).self hkept fun w h => h.checkpoint_written) fun _ => ?_
    refine .bind (Q := fun _ w => Site p w ∧ w.documents ∈ w.disk.checkpoints) Eq.refl
      (.ite (fun _ => .raise hkept fun _ h => h.1) fun _ => .ret hkept fun _ h => h) fun _ => ?_
    refine .modify hkept hkept fun w h => ⟨{ h.1 with stored := fun d hd => ?_ }, rfl⟩
    exact Option.some.inj hd ▸ h.2
  · rw [h.2]
    exact not_not.mp hsame

theorem Project.Site.commit (h : Site p w) (hstored : w.stored = some w.documents) : Ready p w.commit :=
  { h with
    live_dag := h.dag
    live := ⟨w.documents, hstored, h.stored _ hstored, h.documents⟩ }

theorem Project.Ready.publish (h : Ready p w) (shown : Node → NodeStatus) : Site p (w.publish shown) := by
  have hdag : (w.publish shown).disk.state_json.dag = p.dag := (dag_publication ..).trans h.live_dag
  exact { h.toSite with
    saved_dag := hdag
    saved_planning := h.planning
    checkpoint := h.live }

theorem persist_keeps (fails : StorePart → Bool) (shown : Node → NodeStatus) :
    Prog.Keeps Eq (Site p) (persist fails shown) := by
  have hlock : Prog.Keeps Eq (Site p) (Prog.modify World.acquire : Controller Unit) :=
    .modify (Prog.stable_eq _) fun w h => by
      have hacquire : w.acquire = { w with locked := true } := by
        rw [World.acquire, h.alone]
      rw [hacquire]
      exact { h with }
  have hrelease : Prog.Keeps Eq (Site p) (Prog.modify World.release : Controller Unit) :=
    .modify (Prog.stable_eq _) fun w h => { h with }
  have hready : Prog.Kept Eq (Site p) (Ready p) := ⟨Prog.stable_eq _, fun _ h => h.toSite⟩
  have hfailing (b : Bool) : Prog.Outline Eq (Site p) (Ready p) (failing b .os_error) (fun _ => Ready p)
      fun _ => Site p := .ite (fun _ => .raise hready fun _ h => h.toSite) fun _ => .ret hready fun _ h => h
  refine .bind Eq.refl hlock fun _ => .bind Eq.refl (Prog.Keeps.handle Eq.refl ?_ fun e => ?_) fun _ => hrelease
  · refine Prog.Outline.bind (Q := fun _ => Ready p) Eq.refl ?_ fun _ => ?_
    · refine .bind Eq.refl (store_documents_outline fails) fun _ => .bind (Q := fun _ => Ready p) Eq.refl ?_ fun _ => ?_
      · exact .modify ⟨Prog.stable_eq _, fun _ h => h.1⟩ hready fun w h => h.1.commit h.2
      · exact .bind Eq.refl (hfailing _) fun _ => hfailing _
    · exact .bind Eq.refl (hfailing _) fun _ =>
        .modify hready (Prog.stable_eq _).self fun w h => h.publish shown
  · exact .bind Eq.refl hrelease fun _ => .raise (Prog.stable_eq _) e

end Persist

/-! ### Every point of an installation -/

/-- Nobody else writes the project. -/
def nobody (who : Empty) (_ : World) : Option World := who.elim

theorem configured_listed (h : w.disk.files.get? lakefile = some p.before) :
    ∀ item ∈ World.configured w, p.Listed item := by
  intro item hitem
  obtain ⟨name, hname, hfound⟩ := List.mem_filterMap.mp hitem
  obtain ⟨content, hcontent, rfl⟩ := Option.map_eq_some_iff.mp hfound
  simp only [config_names, List.cons_append, List.nil_append, List.mem_cons, List.not_mem_nil, or_false] at hname
  have hother (name : String) (hname : lean_suffix name = false) : p.Listed (name, content) := Or.inr hname
  rcases hname with rfl | rfl | rfl | rfl
  · exact hother _ (by decide)
  · exact Or.inl (congrArg (lakefile, ·) (Option.some.inj (hcontent.symm.trans h)))
  · exact hother _ (by decide)
  · exact hother _ (by decide)

theorem install_planned_libraries_outline (hconfigured : p.base.get? lakefile = some p.document)
    (hlean : ∀ path document, p.base.get? path = some document → lean_suffix path = true) {ν : Type} [DecidableEq ν] (lake : Lake ν)
    (fails : Step → Bool) (shown : Node → NodeStatus) (allow_internet installed : Bool) (entries : List Library) :
    Prog.Outline Eq (Site p) (fun w => Early p w ∧ w.disk.files.get? lakefile = some p.before)
      (install_planned_libraries p.C lake fails shown allow_internet installed entries)
      (fun _ => Site p) fun _ => Site p := by
  have hstart : Prog.Kept Eq (Site p) fun w => Early p w ∧ w.disk.files.get? lakefile = some p.before :=
    ⟨Prog.stable_eq _, fun _ h => h.1.toSite⟩
  refine .ite (fun _ => .ret hstart fun _ h => h.1.toSite) fun _ => .ite (fun _ => ?_) fun _ =>
    .ite (fun _ => .ret hstart fun _ h => h.1.toSite) fun _ => ?_
  · exact .ite (fun _ => .raise hstart fun _ h => h.1.toSite) fun _ => .ret hstart fun _ h => h.1.toSite
  refine .bind (Q := fun w w' => Early p w' ∧ ∀ item ∈ World.configured w, p.Listed item) Eq.refl
    (.get hstart fun w w' h hw => ⟨hw ▸ h.1, configured_listed h.2⟩) fun before => ?_
  refine fun w h => Prog.Outline.bind (Q := fun _ => Site p) Eq.refl
    (((install_libraries_keeps hlean entries).outline fun _ h => h.toSite).mono (fun _ h => h)
      (fun _ _ h => h.toSite) fun _ _ h => h.toSite) (fun result => ?_) w h.1
  refine Prog.Keeps.bind Eq.refl (failing_keeps _ _) fun _ => .ite (.raise (Prog.stable_eq _) _) ?_
  refine .bind Eq.refl (.forM Eq.refl (Prog.stable_eq _) fun item hitem =>
    record_configuration_keeps hconfigured hlean (h.2 item hitem)) fun _ => ?_
  refine .bind Eq.refl (failing_keeps _ _) fun _ => .bind Eq.refl ?_ fun _ => persist_keeps _ shown
  exact .bind Eq.refl (.get (Prog.stable_eq _)) fun _ => .ofExcept (Prog.stable_eq _) _

theorem install_step_site (h : p.Settled w) {ν : Type} [DecidableEq ν] {lake : Lake ν} {fails : Step → Bool} {shown : Node → NodeStatus}
    {allow_internet installed : Bool} {entries : List Library} {moves : List (Prog.Move Empty)}
    {y : Controller Unit} {w' : World} (hrun : Prog.drive nobody moves
      (install_step p.C lake fails shown allow_internet installed entries, w) = some (y, w')) : Site p w' := by
  have hstep : Prog.Outline Eq (Site p) (fun w => Early p w ∧ w.disk.files.get? lakefile = some p.before)
      (install_step p.C lake fails shown allow_internet installed entries) (fun _ => Site p) fun _ => Site p :=
    .handle Eq.refl (install_planned_libraries_outline h.configured h.lean lake fails shown allow_internet
      installed entries) fun e => Prog.Keeps.bind Eq.refl (persist_keeps _ shown) fun _ =>
        .raise (Prog.stable_eq _) e
  exact ((hstep w ⟨h.early, h.before⟩).drive Eq.refl (fun _ _ _ => Eq.trans) (fun who => who.elim) hrun).inv Eq.refl

/-! ### The next resume -/

/-- The next resume passes its check of the sources and goes on with the planning checkpoint. -/
def Project.Resumes (p : Project) (sha256 : Text → String) (shown : Node → NodeStatus) (w : World) : Prop :=
  ∃ w', Prog.calm (restore p.C sha256 p.max_nodes shown) w.disk.resume = (.ok (), w') ∧
    w'.state.planning_request = p.planning

/-- The configuration has its old bytes, or the durable checkpoint is a new one, whose document of the
configuration renders to its own baseline. -/
def Project.Explained (p : Project) (w : World) : Prop :=
  w.disk.files.get? lakefile = some p.before ∨
    ∃ documents document, w.disk.state_json.source_checkpoint = some documents ∧ documents ≠ p.base ∧
      documents.get? lakefile = some document ∧ document.render p.C [] = .ok document.baseline

theorem Project.Site.loads (h : Site p w) {documents : Documents}
    (hcheckpoint : w.disk.state_json.source_checkpoint = some documents)
    (hwritten : documents ∈ w.disk.checkpoints) (hloads : p.dag.validate (max 128 p.dag.nodes.length) = .ok ())
    (hbounded : p.dag.validate p.max_nodes = .ok ()) : w.disk.Loads p.max_nodes documents where
  journal := h.journal
  dag := by
    have hlength : w.disk.state_json.nodes.length = p.dag.nodes.length := by
      rw [← h.saved_dag, Saved.dag, List.length_map]
    rw [h.saved_dag, hlength]
    exact hloads
  bounded := by rw [h.saved_dag]; exact hbounded
  documents := by
    rw [load_documents, hcheckpoint]
    exact if_pos (List.any_eq_true.mpr ⟨documents, hwritten, decide_eq_true rfl⟩)

/-- Only the configuration can be otherwise than documented. -/
theorem Project.Site.resumes_iff (h : Site p w) {documents : Documents}
    (hcheckpoint : w.disk.state_json.source_checkpoint = some documents)
    (hwritten : documents ∈ w.disk.checkpoints) (hknown : p.Known w.disk.files documents)
    (hloads : p.dag.validate (max 128 p.dag.nodes.length) = .ok ()) (hbounded : p.dag.validate p.max_nodes = .ok ())
    (sha256 : Text → String) (shown : Node → NodeStatus) : p.Resumes sha256 shown w ↔
      ∀ document, documents.get? lakefile = some document →
        ∃ text, document.render p.C [] = .ok text ∧ w.disk.files.get? document.path = some text := by
  rw [Resumes, calm_restore p.C sha256 (h.loads hcheckpoint hwritten hloads hbounded) shown]
  have hplanning : (w.disk.restored documents).state.planning_request = p.planning := h.saved_planning
  constructor
  · rintro ⟨w', hw', -⟩ document hdocument
    exact sources_iff p.C |>.mp (Prod.mk.inj hw').1 lakefile document hdocument
  · intro hlakefile
    refine ⟨_, Prod.ext ((sources_iff p.C).mpr fun path document hdocument => ?_) rfl, hplanning⟩
    by_cases hpath : path = lakefile
    · subst hpath
      exact hlakefile document hdocument
    · obtain ⟨hown, text, htext, hfile⟩ :=
        h.others path document hpath ((hknown.other hpath).symm.trans hdocument)
      exact ⟨text, htext, hown ▸ hfile⟩

/-- **A stopped installation can be resumed just when the configuration is explained.** -/
theorem install_resumes_iff (h : p.Settled w) {ν : Type} [DecidableEq ν] {lake : Lake ν} {fails : Step → Bool} {shown : Node → NodeStatus}
    {allow_internet installed : Bool} {entries : List Library} {moves : List (Prog.Move Empty)}
    {y : Controller Unit} {w' : World} (hrun : Prog.drive nobody moves
      (install_step p.C lake fails shown allow_internet installed entries, w) = some (y, w'))
    (sha256 : Text → String) : p.Resumes sha256 shown w' ↔ p.Explained w' := by
  have hsite : Site p w' := install_step_site h hrun
  obtain ⟨hpath, text, hrender, hfile⟩ := h.sources lakefile p.document h.configured
  have hbefore : text = p.before := Option.some.inj (hfile.symm.trans h.before)
  subst hbefore
  obtain ⟨documents, hcheckpoint, hwritten, hknown⟩ := hsite.checkpoint
  rw [hsite.resumes_iff hcheckpoint hwritten hknown h.loads h.bounded sha256 shown]
  rcases hknown with rfl | ⟨text, hne, rfl, htext⟩
  · -- the durable documents are the old ones
    constructor
    · intro hresumes
      obtain ⟨text, htext, hnow⟩ := hresumes p.document h.configured
      rw [hrender] at htext
      rw [hpath] at hnow
      exact Or.inl (Except.ok.inj htext ▸ hnow)
    · rintro (hold | ⟨other, document, hother, hnew, -⟩) document' hdocument'
      · rw [Option.some.inj (hdocument'.symm.trans h.configured)]
        exact ⟨p.before, hrender, hpath ▸ hold⟩
      · exact absurd (Option.some.inj (hother.symm.trans hcheckpoint)) hnew
  · -- the configuration was read again
    have hdocument : (p.reread text).get? lakefile = some { p.document with baseline := text } :=
      Dict.get?_set_self ..
    constructor
    · intro hresumes
      obtain ⟨rendered, hrendered, hnow⟩ := hresumes _ hdocument
      have hsame : rendered = text := Option.some.inj (hnow.symm.trans (hpath ▸ htext))
      by_cases hbase : p.reread text = p.base
      · have hold : { p.document with baseline := text } = p.document :=
          Option.some.inj (hdocument.symm.trans (hbase ▸ h.configured))
        rw [hold, hrender] at hrendered
        exact absurd (hsame.symm.trans (Except.ok.inj hrendered).symm) hne
      · exact Or.inr ⟨_, _, hcheckpoint, hbase, hdocument, hsame ▸ hrendered⟩
    · rintro (hold | ⟨other, document, hother, -, hread, hplain⟩) document' hdocument'
      · exact absurd (Option.some.inj (htext.symm.trans hold)) hne
      · obtain rfl := Option.some.inj (hother.symm.trans hcheckpoint)
        rw [hdocument] at hread hdocument'
        obtain rfl := Option.some.inj hread
        obtain rfl := Option.some.inj hdocument'
        exact ⟨text, hplain, hpath ▸ htext⟩

/-! ### A crash after the first write -/

/-- A project whose configuration is written in Lean. -/
def sample : Project where
  C := .ascii
  base := Dict.empty.set lakefile { path := lakefile, baseline := "package p".toList }
  document := { path := lakefile, baseline := "package p".toList }
  before := "package p".toList
  dag := {}
  planning := some "design"
  max_nodes := 8

def sampleWorld : World where
  documents := sample.base
  state := { source_checkpoint := some sample.base, planning_request := some "design" }
  stored := some sample.base
  disk := {
    files := (Dict.empty.set lakefile "package p".toList).set toolchain_name "v4".toList
    checkpoints := [sample.base]
    state_json := { source_checkpoint := some sample.base, planning_request := some "design" } }

/-- A Lake that finds no requirements and changes nothing. -/
def sampleLake : Lake Empty where
  requirements _ _ := .ok .empty
  packages _ := .ok .empty
  dumps s := s.toList
  update _ layout := (layout, true)

/-- One that resolves the library that is asked for. -/
def resolvingLake : Lake Empty where
  requirements _ _ := .ok .empty
  packages content := .ok (if content = "resolved".toList then
    Dict.empty.set "batteries" { type := .str "git", url := .str "https://x/b", rev := .str "0" } else .empty)
  dumps s := s.toList
  update _ layout := ({ layout with manifest := some "resolved".toList }, true)

def sampleInstall (lake : Lake Empty) : Controller Unit :=
  install_step sample.C lake (fun _ => false) (·.status) true false [⟨"batteries", "https://x/b", "0"⟩]

theorem sample_only {path : String} {document : SourceDocument} (h : sample.base.get? path = some document) :
    path = lakefile ∧ document = sample.document := by
  rw [sample, Dict.get?_set] at h
  split at h
  · exact ⟨‹_›, (Option.some.inj h).symm⟩
  · cases h

theorem sample_settled : sample.Settled sampleWorld where
  journal := rfl
  alone := rfl
  documents := rfl
  dag := rfl
  planning := rfl
  saved_dag := rfl
  saved_planning := rfl
  checkpoint := rfl
  written := List.mem_singleton_self _
  stored documents h := List.mem_singleton.mpr (Option.some.inj h).symm
  loads := rfl
  bounded := rfl
  lean path document h := by
    obtain ⟨rfl, -⟩ := sample_only h
    decide
  sources path document h := by
    obtain ⟨rfl, rfl⟩ := sample_only h
    exact ⟨rfl, _, rfl, rfl⟩
  configured := rfl
  before := rfl

/-- New requirements are new bytes. -/
theorem append_requirements_ne (lake : Lake Empty) (name : String) (original : Text) (entries : List Library) :
    append_requirements lake name original entries ≠ original := by
  intro h
  have hnil := List.append_right_eq_self.mp h
  split at hnil <;> simp [List.intercalate] at hnil

/-- Stopped when a refused update has put the configuration back, and stopped after the persist that ends an
accepted one, the installation is resumed. -/
theorem sample_resumes :
    (∃ y w', Prog.drive nobody (List.replicate 13 .act) (sampleInstall sampleLake, sampleWorld) = some (y, w') ∧
      sample.Resumes String.ofList (·.status) w') ∧
    ∃ y w', Prog.drive nobody (List.replicate 24 .act) (sampleInstall resolvingLake, sampleWorld) = some (y, w') ∧
      w'.disk.files.get? lakefile ≠ some sample.before ∧ sample.Resumes String.ofList (·.status) w' := by
  have hstop (lake : Lake Empty) (n : Nat) (y : Controller Unit) (w' : World)
      (hrun : Prog.drive nobody (List.replicate n .act) (sampleInstall lake, sampleWorld) = some (y, w'))
      (hexplained : sample.Explained w') : sample.Resumes String.ofList (·.status) w' :=
    (install_resumes_iff sample_settled hrun String.ofList).mpr hexplained
  constructor
  · exact ⟨_, _, rfl, hstop sampleLake 13 _ _ rfl (Or.inl rfl)⟩
  · refine ⟨_, _, rfl, fun h => append_requirements_ne _ _ _ _ (Option.some.inj h), hstop resolvingLake 24 _ _ rfl ?_⟩
    exact Or.inr ⟨_, _, rfl, by decide, rfl, rfl⟩

theorem sample_stuck (hjournal : w.disk.journal = none)
    (hsaved : w.disk.state_json = sampleWorld.disk.state_json) (hcheckpoints : w.disk.checkpoints = [sample.base])
    (hfile : w.disk.files.get? lakefile ≠ some sample.before) :
    ¬ sample.Resumes String.ofList (·.status) w := by
  rintro ⟨w', hw', -⟩
  have hloads : w.disk.Loads sample.max_nodes sample.base := by
    refine ⟨hjournal, ?_, ?_, ?_⟩
    · rw [hsaved]; rfl
    · rw [hsaved]; rfl
    · rw [hsaved, load_documents, hcheckpoints]; rfl
  rw [calm_restore sample.C String.ofList hloads] at hw'
  obtain ⟨text, htext, hcurrent⟩ := (sources_iff sample.C).mp (Prod.mk.inj hw').1 lakefile sample.document rfl
  obtain rfl := Except.ok.inj htext
  exact hfile hcurrent

/-- Cut off after the new requirement is written, no resume passes. -/
theorem sample_unexplained : ∃ y w', Prog.drive nobody (List.replicate 4 .act) (sampleInstall sampleLake, sampleWorld) =
    some (y, w') ∧ ¬ sample.Resumes String.ofList (·.status) w' :=
  ⟨_, _, rfl, sample_stuck rfl rfl rfl fun h => append_requirements_ne _ _ _ _ (Option.some.inj h)⟩

end LeanFlow.Libraries
