import Mathlib.Data.Option.Basic

/-! Runs of a machine, given as what one event does to a state.

`Throughout` is a condition on all events of a run, each asked of the state it happens in:
what such an event preserves, such a run preserves (`Throughout.preserves`). -/
namespace LeanFlow.General

variable {σ ε : Type} {step : σ → ε → Option σ} {ok : σ → ε → Prop} {P : σ → Prop}

/-- `ok` holds of every event of a run. -/
def Throughout (step : σ → ε → Option σ) (ok : σ → ε → Prop) (s : σ) : List ε → Prop
  | [] => True
  | event :: events => ok s event ∧ ∀ s', step s event = some s' → Throughout step ok s' events

theorem Throughout.preserves {s s' : σ} {events : List ε} (h : Throughout step ok s events)
    (hstep : ∀ s event s', P s → ok s event → step s event = some s' → P s') (hs : P s)
    (hrun : events.foldlM step s = some s') : P s' := by
  induction events generalizing s with
  | nil => exact Option.some.inj hrun ▸ hs
  | cons event events ih =>
    obtain ⟨next, hnext, hrest⟩ := Option.bind_eq_some_iff.mp (List.foldlM_cons.symm.trans hrun)
    exact ih (h.2 next hnext) (hstep s event next hs h.1 hnext) hrest

end LeanFlow.General
