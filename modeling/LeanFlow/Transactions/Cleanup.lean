import LeanFlow.Transactions.Crashes

/-! The run's own cleanup after an acceptance that raised.

`run` records the exception and persists what is in memory, whatever the acceptance left there.
Once the journal is written that does no harm; when the journal itself could not be written, the
document already has the proof, and persisting it makes the next resume refuse the run. -/
namespace LeanFlow.Transactions
open General Goals Source Scene

/-- The end of `run`: how the work came out is recorded, and the state is persisted. -/
def run_finally {α : Type} (fails : StorePart → Bool) (shown : Node → NodeStatus) (work : Controller α) : Controller (Except Raised α) := do
  let result ← Prog.handle (fun e => .ret (.error e)) (work >>= fun a => .ret (.ok a))
  persist fails shown
  return result

variable {s : Scene} {w : World} {journal : ProofJournal}
variable {fails : Step → Bool} {last : StorePart → Bool} {shown : Node → NodeStatus}

/-! ### Persisting what an exception left -/

theorem failed_open (hjournal : s.Journaled journal) : (s.failed journal).Open s.Recoverable where
  firm := failed_firm hjournal
  tidy := rfl
  free := rfl
  live _ h := h

theorem committed_open (hjournal : s.Journaled journal) : (s.committed journal).Open s.Recoverable where
  firm := committed_firm hjournal
  tidy := rfl
  free := rfl
  live _ h := h

theorem closed_open : s.closed.Open s.Recoverable where
  firm := closed_firm
  tidy := rfl
  free := rfl
  live _ h := h

theorem failed_commit (w : World) (h : At (s.failed journal).lock w) (hstored : w.stored = some w.documents) :
    s.Open ⟨w.dag, w.stored, w.state.source_transaction⟩ :=
  ⟨h.dag, ⟨w.documents, hstored, h.documents⟩, h.live.transaction⟩

theorem committed_commit (w : World) (h : At (s.committed journal).lock w) (hstored : w.stored = some w.documents) :
    s.Proved ⟨w.dag, w.stored, w.state.source_transaction⟩ :=
  ⟨h.dag, ⟨w.documents, hstored, h.documents⟩, h.live.transaction, h.live.renders⟩

theorem closed_commit (w : World) (h : At s.closed.lock w) (hstored : w.stored = some w.documents) :
    s.Proved ⟨w.dag, w.stored, w.state.source_transaction⟩ :=
  ⟨h.dag, ⟨w.documents, hstored, h.documents⟩, h.live.transaction, h.live.renders⟩

theorem stopped_kept (hs : s.Valid) : Prog.Kept Publications (OnDisk s.Recoverable) s.Stopped where
  stable w w' h hpublications := by
    cases h with
    | idle h => exact .idle ((idle_firm _).kept.stable w w' h hpublications)
    | failed hjournal h => exact .failed hjournal ((failed_firm hjournal).kept.stable w w' h hpublications)
    | late hjournal h => exact .late hjournal ((proved_firm hs hjournal fun _ => Or.inr).kept.stable w w' h hpublications)
    | committed hjournal h => exact .committed hjournal ((committed_firm hjournal).kept.stable w w' h hpublications)
    | closed h => exact .closed (closed_firm.kept.stable w w' h hpublications)
  inside w h := by
    cases h with
    | idle h => exact (idle_firm _).kept.inside w h
    | failed hjournal h => exact (failed_firm hjournal).kept.inside w h
    | late hjournal h => exact (proved_firm hs hjournal fun _ => Or.inr).kept.inside w h
    | committed hjournal h => exact (committed_firm hjournal).kept.inside w h
    | closed h => exact closed_firm.kept.inside w h

/-- What the acceptance left is persisted as it is, but for the id of a finished proof: that is completed. -/
theorem persist_stopped (hs : s.Valid) (hrender : s.after.render s.C [] = .ok s.afterText) :
    Leads s.Recoverable s.Stopped (persist last shown) (fun _ => s.Stopped) s.Stopped := by
  intro w h
  cases h with
  | idle h => exact (leads_persist (idle_open (Same · s.base)) idle_commit last w h).mono (fun _ _ h => .idle h) fun _ _ h => .idle h
  | failed hjournal h =>
    exact (leads_persist (failed_open hjournal) failed_commit last w h).mono (fun _ _ h => .failed hjournal h) fun _ _ h => .failed hjournal h
  | late hjournal h =>
    exact (leads_persist_late hs hjournal hrender last w h).mono (fun _ _ h => .committed hjournal h) fun _ _ h => .late hjournal h
  | committed hjournal h =>
    exact (leads_persist (committed_open hjournal) committed_commit last w h).mono (fun _ _ h => .committed hjournal h)
      fun _ _ h => .committed hjournal h
  | closed h => exact (leads_persist closed_open closed_commit last w h).mono (fun _ _ h => .closed h) fun _ _ h => .closed h

/-! ### The run's end -/

/-- What is known once the acceptance has come out. -/
def Scene.Result (s : Scene) : Except Raised Bool → World → Prop
  | .ok accepted => At (s.answer accepted)
  | .error _ => s.Stopped

theorem answer_open (accepted : Bool) : (s.answer accepted).Open s.Recoverable := by
  cases accepted with
  | false => exact idle_open (Same · s.base)
  | true => exact closed_open

theorem answer_commit (accepted : Bool) (w : World) (h : At (s.answer accepted).lock w) (hstored : w.stored = some w.documents) :
    (s.answer accepted).live ⟨w.dag, w.stored, w.state.source_transaction⟩ := by
  cases accepted with
  | false => exact idle_commit w h hstored
  | true => exact closed_commit w h hstored

theorem persist_result (hs : s.Valid) (hrender : s.after.render s.C [] = .ok s.afterText) (result : Except Raised Bool) :
    Leads s.Recoverable (s.Result result) (persist last shown) (fun _ => s.Result result) fun _ => True := by
  cases result with
  | ok accepted => exact (leads_persist (answer_open accepted) (answer_commit accepted) last).mono (fun _ h => h) (fun _ _ h => h) fun _ _ _ => trivial
  | error e => exact (persist_stopped hs hrender).mono (fun _ h => h) (fun _ _ h => h) fun _ _ _ => trivial

theorem result_kept (hs : s.Valid) (result : Except Raised Bool) : Prog.Kept Publications (OnDisk s.Recoverable) (s.Result result) := by
  cases result with
  | ok accepted => exact (answer_open accepted).firm.kept
  | error e => exact stopped_kept hs

theorem run_finally_leads (hs : s.Valid) (hrender : s.after.render s.C [] = .ok s.afterText) (hjournal : fails .journal = false) :
    Leads s.Recoverable (At (s.idle (Same · s.base))) (run_finally last shown (accept_locked s.C s.sha256 fails shown s.sub)) s.Result
      fun _ => True := by
  have hafter (text : Text) (htext : s.after.render s.C [] = .ok text) : text = s.afterText := Except.ok.inj (htext.symm.trans hrender)
  have hopen : ¬ s.Unjournaled fails := by
    rintro (hfails | hnever)
    · rw [hjournal] at hfails
      cases hfails
    · exact hnever _ hrender
  refine .bind (Q := s.Result) Publications.refl (.handle Publications.refl (.bind (Q := fun accepted => At (s.answer accepted))
    Publications.refl (accept_locked_leads hs hafter) fun accepted => .ret (answer_open accepted).firm.kept fun _ h => h) fun e => ?_)
    fun result => ?_
  · exact fun w h => Prog.Outline.ret (Q := s.Result) (result_kept hs (.error e)) (fun _ h => h) w (h.resolve_right hopen)
  · exact .bind (Q := fun _ => s.Result result) Publications.refl (persist_result hs hrender result)
      fun _ => .ret (result_kept hs result) fun _ h => h

/-- **Cleanup is safe once the journal can be written**: whatever else fails in an acceptance or in the persist after
it, and wherever the process and the resumes after it stop, the next resume ends, before the acceptance or after it. -/
theorem cleanup_survives (hs : s.Valid) (hrender : s.after.render s.C [] = .ok s.afterText) (hjournal : fails .journal = false)
    {w₀ : World} (h₀ : At (s.idle (Same · s.base)) w₀) {moves : List (Prog.Move PublishStep)} {x : Controller (Except Raised Bool)}
    (hrun : Prog.drive (Prog.restrict (fun (step : PublishStep) w => step.clean w = true) PublishStep.apply) moves
      (run_finally last shown (accept_locked s.C s.sha256 fails shown s.sub), w₀) = some (x, w)) {disk : Disk}
    (hresumed : Resumed s.C s.sha256 s.max_nodes w.disk disk) (shown' : Node → NodeStatus) :
    ∃ w', Prog.calm (restore s.C s.sha256 s.max_nodes shown') disk.resume = (.ok (), w') ∧
      s.Ended w' ∧ (x = .ret (.ok true) → s.Done w') ∧ (x = .ret (.ok false) → s.Back w') := by
  have hspec := (run_finally_leads hs hrender hjournal w₀ h₀).drive Publications.refl Publications.trans clean_publications hrun
  have hrecoverable := hresumed.keeps (fun disk h shown => (restore_ends hs h shown).any) (hspec.inv Publications.refl)
  obtain ⟨w', hcalm, hended⟩ := restore_calm (restore_ends hs hrecoverable shown')
  refine ⟨w', hcalm, hended, ?_, ?_⟩
  · rintro rfl
    exact hended.done_of_closed hs (hspec w (Publications.refl w)).2 hresumed hcalm
  · rintro rfl
    exact hended.back_of_idle hs (hspec w (Publications.refl w)).2 hresumed hcalm

/-! ### Exceptions late and early -/

def sampleFinally (fails : Step → Bool) : Controller (Except Raised Bool) :=
  run_finally (fun _ => false) (·.status) (accept_locked sampleScene.C sampleScene.sha256 fails (·.status) sampleScene.sub)

/-- An exception was recorded. -/
def recorded : Controller (Except Raised Bool) → Bool
  | .ret (.error _) => true
  | _ => false

theorem sampleFinally_records : (Prog.drive (Prog.restrict (fun (step : PublishStep) w => step.clean w = true) PublishStep.apply)
    (List.replicate 43 .act) (sampleFinally fun step => decide (step = .commit .state_json), sampleRest)).any
      (fun c => recorded c.1) = true := by decide +kernel

/-- The state could not be written after the proof: the cleanup writes it. -/
theorem sample_completed : ∃ (x : Controller (Except Raised Bool)) (w : World),
    Prog.drive (Prog.restrict (fun (step : PublishStep) w => step.clean w = true) PublishStep.apply) (List.replicate 43 .act)
      (sampleFinally fun step => decide (step = .commit .state_json), sampleRest) = some (x, w) ∧ recorded x = true ∧
    ∃ w', Prog.calm sampleResume w.disk.resume = (.ok (), w') ∧ sampleScene.Ended w' := by
  have hrender : sampleScene.after.render sampleScene.C [] = .ok sampleScene.afterText := by decide +kernel
  obtain ⟨⟨x, w⟩, hrun, hrecorded⟩ := (Option.any_eq_true _ _).mp sampleFinally_records
  obtain ⟨w', hcalm, hended, -⟩ := cleanup_survives sampleScene_valid hrender rfl sampleRest_idle hrun .refl (·.status)
  exact ⟨x, w, hrun, hrecorded, w', hcalm, hended⟩

/-- The resume is refused. -/
def refused (w : World) : Bool :=
  match (Prog.calm sampleResume w.disk.resume).1 with
  | .ok () => false
  | .error _ => true

/-- **A journal that could not be written**: the document has the proof, the cleanup persists it, and the source does not
have it. -/
theorem sample_unjournaled : ∃ (x : Controller (Except Raised Bool)) (w : World),
    Prog.drive (Prog.restrict (fun (step : PublishStep) w => step.clean w = true) PublishStep.apply) (List.replicate 19 .act)
      (sampleFinally fun step => decide (step = .journal), sampleRest) = some (x, w) ∧ recorded x = true ∧ refused w = true := by
  have hrefused : (Prog.drive (Prog.restrict (fun (step : PublishStep) w => step.clean w = true) PublishStep.apply)
      (List.replicate 19 .act) (sampleFinally fun step => decide (step = .journal), sampleRest)).any
        (fun c => recorded c.1 && refused c.2) = true := by decide +kernel
  obtain ⟨⟨x, w⟩, hrun, h⟩ := (Option.any_eq_true _ _).mp hrefused
  exact ⟨x, w, hrun, Bool.and_eq_true_iff.mp h⟩

end LeanFlow.Transactions
