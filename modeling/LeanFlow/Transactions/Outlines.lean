import LeanFlow.Transactions.Stages

/-! Publishing and persisting, stage by stage. -/
namespace LeanFlow.Transactions
open General Goals Source

/-- A predicate of what a crash leaves. -/
abbrev OnDisk (R : Disk → Prop) (w : World) : Prop := R w.disk

/-- The stage holds whatever is published, and a crash in it leaves files of `R`. -/
structure Stage.Firm (R : Disk → Prop) (g : Stage) : Prop where
  live : ∀ w, At g w → w.locked = false → w.torn = false → g.saved w.state.point
  decided : ∀ disk : Disk, g.files disk.files disk.journal → g.saved disk.state_json.point → Named disk.state_json.changes →
    Written disk disk.state_json.source_checkpoint → R disk

variable {R : Disk → Prop} {g g' : Stage} {Φ : Prop}

theorem Stage.Firm.kept (h : g.Firm R) : Prog.Kept Publications (OnDisk R) (At g) where
  stable := stable_at h.live
  inside w hw := h.decided w.disk hw.files hw.saved hw.saved_named hw.saved_written

theorem Stage.Firm.mono {R' : Disk → Prop} (h : g.Firm R) (hR : ∀ disk, R disk → R' disk) : g.Firm R' where
  live := h.live
  decided disk hfiles hsaved hnamed hwritten := hR disk (h.decided disk hfiles hsaved hnamed hwritten)

/-- Under the lock nobody publishes. -/
def Stage.lock (g : Stage) : Stage := { g with locked := true }

theorem Stage.Firm.lock (h : g.Firm R) : g.lock.Firm R where
  live w hw hfree := by
    rw [hw.locked] at hfree
    cases hfree
  decided := h.decided

/-- Only what is on disk decides: a locked stage may hold any live state. -/
theorem Stage.Firm.lock_of (h : g.Firm R) (hfiles : g'.files = g.files) (hsaved : g'.saved = g.saved) : g'.lock.Firm R where
  live w hw hfree := by
    rw [hw.locked] at hfree
    cases hfree
  decided disk := by
    show g'.files _ _ → g'.saved _ → _
    rw [hfiles, hsaved]
    exact h.decided disk

/-- The conclusion of a call that fails only when it is told to. -/
def Fails (Φ : Prop) (g : Stage) (_ : Raised) (w : World) : Prop := Φ ∧ At g w

theorem failing_outline {P : World → Prop} (hP : Prog.Kept Publications (OnDisk R) P) {fails : Bool} {e : Raised}
    {E : Raised → World → Prop} (hE : ∀ w, fails = true → P w → E e w) :
    Prog.Outline Publications (OnDisk R) P (failing fails e) (fun _ => P) E :=
  .ite (fun hfails => .raise hP fun w h => hE w hfails h) fun _ => .ret hP fun _ h => h

/-! ### The lock -/

theorem At.acquire {w : World} (h : At g w) (htidy : g.tidy = true) :
    At g.lock w.acquire := by
  unfold World.acquire
  split
  · rename_i hp
    exact { h with locked := rfl, alone := fun _ => hp }
  · rename_i p hp
    obtain ⟨hsaved, hnamed, hwritten⟩ := h.publishing p hp
    refine { h with
      saved := by
        show g.saved (p.complete w.state.changes).point
        rw [Publishing.complete, point_publication]
        exact hsaved
      saved_named := fun change hchange => ?_
      saved_written := hwritten
      locked := rfl
      alone := fun _ => rfl
      publishing := fun q hq => by cases hq }
    rcases List.mem_append.mp hchange with hchange | hchange
    · exact hnamed change hchange
    · exact h.live_named htidy change (List.mem_of_mem_take (List.mem_of_mem_drop hchange))

theorem At.release {w : World} (h : At g.lock w) (hfree : g.locked = false) : At g w.release :=
  { h with
    locked := hfree.symm
    alone := fun hlocked => by rw [hfree] at hlocked; cases hlocked }

/-- A locked section, from one stage to another. -/
theorem with_lock_outline {g₁ g₂ : Stage} (hg : g.Firm R) (hg₁ : g₁.Firm R) (hg₂ : g₂.Firm R)
    (htidy : g.tidy = true) (hfree₁ : g₁.locked = false) (hfree₂ : g₂.locked = false)
    {x : Controller Unit}
    (hx : Prog.Outline Publications (OnDisk R) (At g.lock) x (fun _ => At g₁.lock) (Fails Φ g₂.lock)) :
    Prog.Outline Publications (OnDisk R) (At g) (with_lock x) (fun _ => At g₁) (Fails Φ g₂) := by
  refine .bind (Q := fun _ => At g.lock) Publications.refl
    (.modify hg.kept hg.lock.kept fun w h => h.acquire htidy) fun _ => ?_
  refine .bind (Q := fun _ => At g₁.lock) Publications.refl (.handle Publications.refl hx fun e => ?_) fun _ => ?_
  · rintro w ⟨hΦ, hw⟩
    refine Prog.Outline.bind (Q := fun _ => At g₂) Publications.refl (.modify hg₂.lock.kept hg₂.kept
      fun w h => h.release hfree₂) (fun _ => .raise hg₂.kept fun w h => ⟨hΦ, h⟩) w hw
  · exact .modify hg₁.lock.kept hg₁.kept fun w h => h.release hfree₁

/-! ### Publishing -/

/-- The live state becomes the durable one. -/
theorem At.publish {w : World} (h : At g.lock w) (htidy : g.tidy = true) {saved : Point → Prop}
    (hsaved : saved w.state.point) (shown : Node → NodeStatus) :
    At { g.lock with saved := saved } (w.publish shown) :=
  { h with
    saved := by
      show saved (w.state.publication shown).point
      rw [point_publication]
      exact hsaved
    saved_named := h.live_named htidy
    saved_written := h.live_written
    publishing := fun p hp => by
      rw [show (w.publish shown).publishing = none from h.alone rfl] at hp
      cases hp }

theorem publish_outline (hg : g.Firm R) (htidy : g.tidy = true) (hfree : g.locked = false)
    (hlive : ∀ p, g.live p → g.saved p) {fails : Bool} (hΦ : fails = true → Φ) (shown : Node → NodeStatus) :
    Prog.Outline Publications (OnDisk R) (At g) (publish fails shown) (fun _ => At g) (Fails Φ g) := by
  refine with_lock_outline hg hg hg htidy hfree hfree (.bind Publications.refl
    (failing_outline hg.lock.kept fun w hfails h => ⟨hΦ hfails, h⟩) fun _ => ?_)
  exact .modify hg.lock.kept hg.lock.kept fun w h => h.publish htidy (hlive _ h.live) shown

/-- Work between two publications; what it raises is raised after the second one. -/
theorem progress_call_outline {g₁ : Stage} (hg : g.Firm R) (hg₁ : g₁.Firm R) (htidy : g.tidy = true)
    (htidy₁ : g₁.tidy = true) (hfree : g.locked = false) (hfree₁ : g₁.locked = false)
    (hlive : ∀ p, g.live p → g.saved p) (hlive₁ : ∀ p, g₁.live p → g₁.saved p) {begin_fails end_fails : Bool}
    (hbegin : begin_fails = true → Φ) (hend : end_fails = true → Φ) (shown : Node → NodeStatus)
    {x : Controller Unit}
    (hx : Prog.Outline Publications (OnDisk R) (At g) x (fun _ => At g₁) (Fails Φ g₁))
    (hback : ∀ w, At g w → At g₁ w) :
    Prog.Outline Publications (OnDisk R) (At g) (progress_call shown begin_fails end_fails x)
      (fun _ => At g₁) (Fails Φ g₁) := by
  refine .bind (Q := fun _ => At g) Publications.refl ((publish_outline hg htidy hfree hlive hbegin shown).mono
    (fun _ h => h) (fun _ _ h => h) fun _ _ h => ⟨h.1, hback _ h.2⟩) fun _ => ?_
  refine .bind (Q := fun _ => At g₁) Publications.refl (.handle Publications.refl hx fun e => ?_)
    fun _ => publish_outline hg₁ htidy₁ hfree₁ hlive₁ hend shown
  rintro w ⟨hΦ, hw⟩
  exact Prog.Outline.bind (Q := fun _ => At g₁) Publications.refl
    (publish_outline hg₁ htidy₁ hfree₁ hlive₁ hend shown) (fun _ => .raise hg₁.kept fun w h => ⟨hΦ, h⟩) w hw

/-! ### Persisting -/

theorem At.checkpoint {w : World} (h : At g w) :
    At g w.checkpoint ∧ w.checkpoint.documents ∈ w.checkpoint.disk.checkpoints := by
  unfold World.checkpoint
  split
  · exact ⟨h, ‹_›⟩
  · have hmore (c : Option Documents) (hc : Written w.disk c) (d : Documents) (hd : c = some d) :
        d ∈ w.documents :: w.disk.checkpoints := List.mem_cons_of_mem _ (hc d hd)
    refine ⟨{ h with
      saved_written := hmore _ h.saved_written
      live_written := hmore _ h.live_written
      stored := hmore _ h.stored
      publishing := fun p hp => ?_ }, List.mem_cons_self ..⟩
    obtain ⟨hsaved, hnamed, hwritten⟩ := h.publishing p hp
    exact ⟨hsaved, hnamed, hmore _ hwritten⟩

theorem store_documents_outline (hg : g.Firm R) {fails : StorePart → Bool}
    (hΦ : ∀ part, fails part = true → Φ) :
    Prog.Outline Publications (OnDisk R) (At g) (store_documents fails)
      (fun _ w => At g w ∧ w.stored = some w.documents) (Fails Φ g) := by
  have hstored : Prog.Kept Publications (OnDisk R) fun w => At g w ∧ w.stored = some w.documents :=
    ⟨hg.kept.stable.and (stable_unpublished fun w w' h hsame => by rw [hsame.stored, hsame.documents, h]),
      fun w h => hg.kept.inside w h.1⟩
  have hwritten : Prog.Kept Publications (OnDisk R) fun w => At g w ∧ w.documents ∈ w.disk.checkpoints :=
    ⟨hg.kept.stable.and (stable_unpublished fun w w' h hsame => by rwa [hsame.checkpoints, hsame.documents]),
      fun w h => hg.kept.inside w h.1⟩
  have hread (w : World) : Prog.Kept Publications (OnDisk R)
      fun w' => At g w' ∧ w'.stored = w.stored ∧ w'.documents = w.documents :=
    ⟨hg.kept.stable.and (stable_unpublished fun w' w'' h hsame => by
      rwa [hsame.stored, hsame.documents]), fun w h => hg.kept.inside w h.1⟩
  refine .bind (Q := fun w w' => At g w' ∧ w'.stored = w.stored ∧ w'.documents = w.documents) Publications.refl
    (.get hg.kept fun w w' h hpublications => ⟨hg.kept.stable w w' h hpublications,
      hpublications.unpublished.stored, hpublications.unpublished.documents⟩) fun w => ?_
  refine .ite (fun _ => ?_) fun hsame => .ret (hread w) fun w' h => ⟨h.1, ?_⟩
  · refine Prog.Outline.mono (P := At g) ?_ (fun _ h => h.1) (fun _ _ h => h) fun _ _ h => h
    refine .bind Publications.refl (failing_outline hg.kept fun w hfails h => ⟨hΦ _ hfails, h⟩) fun _ => ?_
    refine .bind (Q := fun _ w => At g w ∧ w.documents ∈ w.disk.checkpoints) Publications.refl
      (.modify hg.kept hwritten fun w h => h.checkpoint) fun _ => ?_
    refine .bind Publications.refl (failing_outline hwritten fun w hfails h => ⟨hΦ _ hfails, h.1⟩) fun _ => ?_
    refine .modify hwritten hstored fun w h => ⟨{ h.1 with stored := fun d hd => ?_ }, rfl⟩
    obtain rfl := Option.some.inj hd
    exact h.2
  · rw [h.2.1, h.2.2]
    exact not_not.mp hsame

/-- What `persist` makes of a stage: `live'` is the new live state, `saved'` what is durable then. -/
theorem persist_outline {live' saved' late : Point → Prop} (hg : g.Firm R)
    (hg₁ : Stage.Firm R { g with live := live', saved := saved' }) (hg₂ : Stage.Firm R { g with live := late })
    (htidy : g.tidy = true) (hfree : g.locked = false)
    (hcommit : ∀ w, At g.lock w → w.stored = some w.documents →
      live' ⟨w.dag, w.stored, w.state.source_transaction⟩)
    (hlate : ∀ p, g.live p → late p) (hlate' : ∀ p, live' p → late p) (hsaved : ∀ p, live' p → saved' p)
    {fails : StorePart → Bool} (hΦ : ∀ part, fails part = true → Φ) (shown : Node → NodeStatus) :
    Prog.Outline Publications (OnDisk R) (At g) (persist fails shown)
      (fun _ => At { g with live := live', saved := saved' }) (Fails Φ { g with live := late }) := by
  refine with_lock_outline hg hg₁ hg₂ htidy hfree hfree ?_
  have hcommitted : Stage.Firm R { g with live := live' }.lock := hg.lock_of rfl rfl
  have hfail (w : World) (h : At { g with live := live' }.lock w) : At { g with live := late }.lock w :=
    { h with live := hlate' _ h.live }
  refine .bind (Q := fun _ => At { g with live := live' }.lock) Publications.refl ?_ fun _ => ?_
  · refine .bind Publications.refl ((store_documents_outline hg.lock hΦ).mono (fun _ h => h) (fun _ _ h => h)
      fun _ w h => ⟨h.1, { h.2 with live := hlate _ h.2.live }⟩) fun _ => ?_
    have hstored : Prog.Kept Publications (OnDisk R) fun w => At g.lock w ∧ w.stored = some w.documents :=
      ⟨hg.lock.kept.stable.and (stable_unpublished fun w w' h hsame => by rw [hsame.stored, hsame.documents, h]),
        fun w h => hg.lock.kept.inside w h.1⟩
    refine .bind (Q := fun _ => At { g with live := live' }.lock) Publications.refl
      (.modify hstored hcommitted.kept fun w h => ?_) fun _ => ?_
    · exact { h.1 with live := hcommit w h.1 h.2, live_named := h.1.live_named, live_written := h.1.stored }
    · exact .bind Publications.refl (failing_outline hcommitted.kept fun w hfails h => ⟨hΦ _ hfails, hfail w h⟩)
        fun _ => failing_outline hcommitted.kept fun w hfails h => ⟨hΦ _ hfails, hfail w h⟩
  · refine .bind Publications.refl (failing_outline hcommitted.kept fun w hfails h => ⟨hΦ _ hfails, hfail w h⟩)
      fun _ => ?_
    exact .modify hcommitted.kept hg₁.lock.kept fun w h =>
      At.publish (g := { g with live := live' }) h htidy (hsaved _ h.live) shown

/-! ### Steps between stages -/

variable {w : World} {shown : Node → NodeStatus}

/-- What is known may be forgotten. -/
theorem At.weaken (h : At g w) (hfiles : ∀ files journal, g.files files journal → g'.files files journal)
    (hsaved : ∀ p, g.saved p → g'.saved p) (hlive : ∀ p, g.live p → g'.live p)
    (hdocuments : ∀ documents, g.documents documents → g'.documents documents) (hdag : ∀ dag, g.dag dag → g'.dag dag)
    (htidy : g'.tidy = true → g.tidy = true) (hlocked : g'.locked = g.locked)
    (hplanning : ∀ planning, g.planning planning → g'.planning planning) : At g' w where
  files := hfiles _ _ h.files
  saved := hsaved _ h.saved
  saved_named := h.saved_named
  saved_written := h.saved_written
  live := hlive _ h.live
  live_named := fun ht => h.live_named (htidy ht)
  live_written := h.live_written
  documents := hdocuments _ h.documents
  dag := hdag _ h.dag
  planning := hplanning _ h.planning
  stored := h.stored
  locked := h.locked.trans hlocked.symm
  alone := fun hl => h.alone (hlocked ▸ hl)
  publishing := fun p hp => ⟨hsaved _ (h.publishing p hp).1, (h.publishing p hp).2⟩

/-- From one assertion to another, through states whose files satisfy `R`. -/
abbrev Leads (R : Disk → Prop) {α : Type} (P : World → Prop) (x : Controller α) (Q : α → World → Prop) (E : World → Prop) : Prop :=
  Prog.Outline Publications (OnDisk R) P x Q fun _ => E

theorem leads_failing (hg : g.Firm R) (fails : Bool) (e : Raised) :
    Leads R (At g) (failing fails e) (fun _ => At g) (At g) :=
  failing_outline hg.kept fun _ _ h => h

theorem leads_checked (hg : g.Firm R) {α : Type} (result : Except ValueError α) :
    Leads R (At g) (checked result) (fun a w => At g w ∧ result = .ok a) (At g) := by
  refine .ofExcept hg.kept (fun a h w hw => ⟨hw, ?_⟩) fun _ _ _ h => h
  cases result with
  | error e => cases h
  | ok a' => exact congrArg _ (Except.ok.inj h)

theorem leads_modify (hg : g.Firm R) (hg' : g'.Firm R) {f : World → World} (h : ∀ w, At g w → At g' (f w)) {E : World → Prop} :
    Leads R (At g) (Prog.modify f) (fun _ => At g') E := .modify hg.kept hg'.kept h

theorem named_modify {changes : List Change} (h : Named changes) (i : Nat) {f : Change → Change}
    (hf : ∀ change, change.path.isSome = true → (f change).path.isSome = true) : Named (changes.modify i f) := by
  intro change hchange
  obtain ⟨j, hj, rfl⟩ := List.mem_iff_getElem.mp hchange
  rw [List.getElem_modify]
  have hnamed := h _ (List.getElem_mem (by simpa using hj))
  split
  · exact hf _ hnamed
  · exact hnamed

theorem At.changes (h : At g w) {f : List Change → List Change} (hf : ∀ changes, Named changes → Named (f changes)) :
    At g (w.setChanges f) := { h with live_named := fun htidy => hf _ (h.live_named htidy) }

theorem leads_changes (hg : g.Firm R) {f : List Change → List Change} (hf : ∀ changes, Named changes → Named (f changes))
    {E : World → Prop} : Leads R (At g) (Prog.modify (World.setChanges f)) (fun _ => At g) E :=
  leads_modify hg hg fun _ h => h.changes hf

/-- What is read of a state is known of that state. -/
theorem leads_get (hg : g.Firm R) {α : Type} {f : World → Controller α} {Q : α → World → Prop} {E : World → Prop}
    (h : ∀ w, At g w → Leads R (At g) (f w) Q E) : Leads R (At g) (Prog.get >>= f) Q E := by
  refine .bind (Q := fun w w' => At g w' ∧ At g w) Publications.refl
    (.get hg.kept fun w w' hw hpublications => ⟨hg.kept.stable w w' hw hpublications, hw⟩) fun w w' hw => ?_
  exact h w hw.2 w' hw.1

/-- A stage in which the controller may publish at any time. -/
structure Stage.Open (R : Disk → Prop) (g : Stage) : Prop where
  firm : g.Firm R
  tidy : g.tidy = true
  free : g.locked = false
  live : ∀ p, g.live p → g.saved p

theorem leads_progress_call (hg : g.Open R) (begin_fails end_fails : Bool) {x : Controller Unit}
    (hx : Leads R (At g) x (fun _ => At g) (At g)) :
    Leads R (At g) (progress_call shown begin_fails end_fails x) (fun _ => At g) (At g) := by
  refine (progress_call_outline (Φ := True) hg.firm hg.firm hg.tidy hg.tidy hg.free hg.free hg.live hg.live (fun _ => trivial)
    (fun _ => trivial) shown (hx.mono (fun _ h => h) (fun _ _ h => h) fun _ _ h => ⟨trivial, h⟩) fun _ h => h).mono
    (fun _ h => h) (fun _ _ h => h) fun _ _ h => h.2

theorem leads_persist (hg : g.Open R) (hcommit : ∀ w, At g.lock w → w.stored = some w.documents →
    g.live ⟨w.dag, w.stored, w.state.source_transaction⟩) (fails : StorePart → Bool) :
    Leads R (At g) (persist fails shown) (fun _ => At g) (At g) :=
  (persist_outline (Φ := True) hg.firm hg.firm hg.firm hg.tidy hg.free hcommit (fun _ h => h) (fun _ h => h) hg.live
    (fun _ _ => trivial) shown).mono (fun _ h => h) (fun _ _ h => h) fun _ _ h => h.2

end LeanFlow.Transactions
