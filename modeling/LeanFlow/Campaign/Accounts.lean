import LeanFlow.Campaign.Charged

/-! What a campaign's ledger accounts for, in every run.

The usage of an invocation is stored once (`usage_changes_le`), a new controller refunds
none and takes no time back (`restart_charges`), and both come from the same invariant as
the bound on the calls. -/
namespace LeanFlow.Campaign
open General

/-! ### Usage is stored once -/

/-- A `finish` that changes the invocation's usage. -/
def stores (invocation : Uuid) (event : Event) (w w' : World) : Bool :=
  match event with
  | .finish .. => (w.entry invocation).map (·.usage) ≠ (w'.entry invocation).map (·.usage)
  | _ => false

/-- How often a run stores the invocation's usage. -/
def usage_changes (invocation : Uuid) (w : World) : List Event → Nat
  | [] => 0
  | event :: events =>
    match step w event with
    | none => 0
    | some w' => (stores invocation event w w').toNat + usage_changes invocation w' events

/-- The invocation is known, and no controller has it open. -/
structure Settled (invocation : Uuid) (w : World) : Prop where
  drawn : invocation ∈ w.drawn
  ended : ∀ c call, w.controller = some c → c.state.invocations.get? invocation = some call →
    call.status = .finished ∨ call.status = .not_started

theorem entry_of_controller {w : World} {c : CampaignLimits} (hc : w.controller = some c) (invocation : Uuid) :
    w.entry invocation = c.state.invocations.get? invocation := by
  simp [World.entry, World.ledger, hc]

/-- A call that changes an invocation found it open. -/
theorem change_other {c : CampaignLimits} {event : Event} {invocations : Dict Uuid Invocation} (h : Change c event invocations)
    {invocation : Uuid} (hfresh : invocation ∉ event.identifier)
    (hended : ∀ call, c.state.invocations.get? invocation = some call →
      (call.status = .finished ∨ call.status = .not_started) ∧ ∀ now wrote, event ≠ .started_call invocation now wrote) :
    invocations.get? invocation = c.state.invocations.get? invocation := by
  cases h with
  | reserved other checked now wrote room => exact Dict.get?_set_ne _ _ fun heq => hfresh (List.mem_singleton.mpr heq)
  | started other now wrote call present =>
    refine Dict.get?_set_ne _ _ fun heq => ?_
    subst heq
    exact (hended call present).2 now wrote rfl
  | ended other usage started now wrote call present unended =>
    refine Dict.get?_set_ne _ _ fun heq => ?_
    subst heq
    rcases (hended call present).1 with hstatus | hstatus
    · exact unended.1 hstatus
    · exact unended.2 hstatus
  | kept now wrote => rfl

theorem Unended.ne {w : World} {event : Event} (h : Unended w event) {invocation : Uuid} {call : Invocation}
    (hcall : w.entry invocation = some call) (hended : call.status = .finished ∨ call.status = .not_started) :
    ∀ now wrote, event ≠ .started_call invocation now wrote := by
  rintro now wrote rfl
  rcases h call hcall with hstatus | hstatus <;> simp [hstatus] at hended

theorem mem_drawn_act {c : CampaignLimits} {event : Event} {w : World} {invocation : Uuid} (h : invocation ∈ w.drawn) :
    invocation ∈ (act c event w).drawn := by
  unfold act
  split
  · exact h
  · exact List.mem_append_right _ h

theorem drawn_restart (limits : Limits) (started now : ℚ) (wrote : Bool) (w : World) :
    (restart limits started now wrote w).drawn = w.drawn := by
  unfold restart
  split
  · rfl
  · split <;> rfl

theorem restart_ended {limits : Limits} {started now : ℚ} {wrote : Bool} {w : World} {c : CampaignLimits}
    (h : (restart limits started now wrote w).controller = some c) {invocation : Uuid} {call : Invocation}
    (hcall : c.state.invocations.get? invocation = some call) : call.status = .finished ∨ call.status = .not_started := by
  unfold restart at h
  split at h
  · cases h
  · rename_i first hinit
    split at h
    · obtain rfl := Option.some.inj h
      exact (init_spec hinit).ended invocation call hcall
    · cases h

/-- An invocation that has ended stays as it is. -/
theorem act_settled {w : World} {c : CampaignLimits} {event : Event} {invocation : Uuid} (h : Settled invocation w)
    (hc : w.controller = some c) (hfresh : ∀ invocation ∈ event.identifier, invocation ∉ w.drawn) (hproper : Unended w event)
    (now : ℚ) : (act c event { w with clock := now }).entry invocation = w.entry invocation ∧
      Settled invocation (act c event { w with clock := now }) := by
  have hdrawn := @mem_drawn_act c event { w with clock := now } _ h.drawn
  cases hperform : perform c event with
  | none =>
    have hact : act c event { w with clock := now } = { w with clock := now } := by simp [act, hperform]
    rw [hact]
    exact ⟨rfl, h.drawn, h.ended⟩
  | some new =>
    obtain ⟨invocations, hchange, rfl⟩ := perform_spec hperform
    have hcontroller : (act c event { w with clock := now }).controller =
        some (persist event.readings.2 { c with state := { c.state with invocations := invocations } }) := by
      simp [act, hperform]
    have hsame : invocations.get? invocation = c.state.invocations.get? invocation :=
      change_other hchange (fun hi => hfresh invocation hi h.drawn) fun call hcall =>
        ⟨h.ended c call hc hcall, hproper.ne ((entry_of_controller hc invocation).trans hcall) (h.ended c call hc hcall)⟩
    refine ⟨?_, hdrawn, fun c' call hc' hcall => ?_⟩
    · rw [entry_of_controller hcontroller, entry_of_controller hc]
      exact hsame
    · obtain rfl := Option.some.inj (hcontroller.symm.trans hc')
      exact h.ended c call hc (hsame.symm.trans hcall)

theorem step_settled {w w' : World} {event : Event} {invocation : Uuid} (h : Settled invocation w) (hproper : Unended w event)
    (hstep : step w event = some w') : stores invocation event w w' = false ∧ Settled invocation w' := by
  obtain ⟨-, hcases⟩ := step_cases hstep
  rcases hcases with ⟨limits, started, now, wrote, rfl, rfl⟩ | ⟨c, hc, -, hfresh, rfl⟩
  · exact ⟨rfl, by rw [drawn_restart]; exact h.drawn, fun c call hc hcall => restart_ended hc hcall⟩
  · obtain ⟨hentry, hsettled⟩ := act_settled h hc hfresh hproper event.readings.2
    refine ⟨?_, hsettled⟩
    cases event <;> simp [stores, hentry]

theorem usage_changes_settled {w : World} {events : List Event} {invocation : Uuid} (h : Settled invocation w)
    (hproper : Throughout step Unended w events) : usage_changes invocation w events = 0 := by
  induction events generalizing w with
  | nil => rfl
  | cons event events ih =>
    unfold usage_changes
    cases hstep : step w event with
    | none => rfl
    | some w' =>
      obtain ⟨hstores, hsettled⟩ := step_settled h hproper.1 hstep
      simp [hstores, ih hsettled (hproper.2 w' hstep)]

/-- A `finish` that stores the usage of an invocation ends it. -/
theorem settled_of_stores {w w' : World} {event : Event} {invocation : Uuid} (h : Kept w) (hstep : step w event = some w')
    (hstores : stores invocation event w w' = true) : Settled invocation w' := by
  obtain ⟨-, hcases⟩ := step_cases hstep
  rcases hcases with ⟨limits, started, now, wrote, rfl, rfl⟩ | ⟨c, hc, -, -, rfl⟩
  · cases hstores
  · cases event with
    | finish other usage started now wrote =>
      cases hperform : perform c (.finish other usage started now wrote) with
      | none => simp [stores, act, hperform, World.entry, World.ledger, hc] at hstores
      | some new =>
        obtain ⟨invocations, hchange, rfl⟩ := perform_spec hperform
        cases hchange with
        | ended other usage started now wrote call present unended =>
          by_cases hother : invocation = other
          · subst hother
            refine ⟨mem_drawn_act ((h.memory c hc).2.1 _ ((Dict.mem_keys_iff ..).mpr ⟨call, present⟩)), fun c' after hc' hafter => ?_⟩
            simp only [act, hperform] at hc'
            obtain rfl := Option.some.inj hc'
            obtain rfl := Option.some.inj ((Dict.get?_set_self ..).symm.trans hafter)
            cases started <;> simp
          · refine absurd hstores ?_
            simp [stores, act, hperform, World.entry, World.ledger, hc, persist, Dict.get?_set_ne _ _ hother]
    | _ => cases hstores

theorem usage_changes_le {w : World} {events : List Event} (h : Kept w) (hproper : Throughout step Unended w events)
    (invocation : Uuid) : usage_changes invocation w events ≤ 1 := by
  induction events generalizing w with
  | nil => exact Nat.zero_le 1
  | cons event events ih =>
    unfold usage_changes
    cases hstep : step w event with
    | none => exact Nat.zero_le 1
    | some w' =>
      dsimp only
      cases hstores : stores invocation event w w' with
      | true =>
        rw [usage_changes_settled (settled_of_stores h hstep hstores) (hproper.2 w' hstep)]
        exact le_rfl
      | false =>
        rw [Bool.toNat_false, Nat.zero_add]
        exact ih (step_kept h hproper.1 hstep) (hproper.2 w' hstep)

/-! ### Another controller -/

theorem step_restart {w w' : World} {limits : Limits} {started now : ℚ} {wrote : Bool}
    (h : step w (.restart limits started now wrote) = some w') :
    started ≤ now ∧ w' = restart limits started now wrote { w with clock := now } := by
  by_cases hlast : now < started
  · have hnone : step w (.restart limits started now wrote) = none := if_pos hlast
    cases hnone.symm.trans h
  · have hsome : step w (.restart limits started now wrote) =
        some (restart limits started now wrote { w with clock := now }) := if_neg hlast
    exact ⟨not_lt.mp hlast, (Option.some.inj (hsome.symm.trans h)).symm⟩

def Charged (w : World) (invocation : Uuid) : Prop := ∃ call, w.entry invocation = some call ∧ call.status ≠ .not_started

/-- What is charged in memory and was returned to a caller is charged on file. -/
theorem charged_file {w : World} (h : Kept w) {invocation : Uuid} (hgranted : invocation ∈ w.granted)
    (hcharged : Charged w invocation) :
    ∃ ledger call, w.file = some ledger ∧ ledger.invocations.get? invocation = some call ∧ call.status ≠ .not_started := by
  obtain ⟨ledger, hledger, hmem⟩ := h.granted invocation hgranted
  obtain ⟨call, hcall⟩ := (Dict.mem_keys_iff ..).mp hmem
  refine ⟨ledger, call, hledger, hcall, fun hstatus => ?_⟩
  obtain ⟨current, hcurrent, hcharged⟩ := hcharged
  cases hc : w.controller with
  | none =>
    simp only [World.entry, World.ledger, hc, hledger, Option.bind_some] at hcurrent
    obtain rfl := Option.some.inj (hcall.symm.trans hcurrent)
    exact hcharged hstatus
  | some c =>
    obtain ⟨released, hreleased, hnot⟩ := (h.behind c ledger hc hledger).1.released invocation ⟨call, hcall, hstatus⟩
    rw [entry_of_controller hc] at hcurrent
    obtain rfl := Option.some.inj (hreleased.symm.trans hcurrent)
    exact hcharged hnot

theorem restart_charges {w : World} (h : Kept w) {invocation : Uuid} (hgranted : invocation ∈ w.granted)
    (hcharged : Charged w invocation) (limits : Limits) (started now : ℚ) (wrote : Bool) :
    Charged (restart limits started now wrote { w with clock := now }) invocation := by
  obtain ⟨ledger, call, hledger, hcall, hstatus⟩ := charged_file h hgranted hcharged
  have hfile : Charged { w with clock := now, controller := none } invocation :=
    ⟨call, by simp [World.entry, World.ledger, hledger, hcall], hstatus⟩
  unfold restart
  cases hinit : init w.file limits started with
  | error message => exact hfile
  | ok c =>
    cases wrote with
    | false => exact hfile
    | true =>
      rcases (init_spec hinit).ledger with ⟨hnone, -⟩ | ⟨old, hold, -, -, hinterrupted⟩
      · cases hnone.symm.trans hledger
      · obtain rfl := Option.some.inj (hold.symm.trans hledger)
        refine ⟨interrupt call, ?_, fun hnot => hstatus ((interrupt_status call).mp hnot)⟩
        show c.state.invocations.get? invocation = some (interrupt call)
        rw [hinterrupted, get?_interrupt_all, hcall]
        rfl

/-- The recorded time does not run backwards. -/
theorem restart_time {w : World} {ledger : Ledger} (hledger : w.file = some ledger) (limits : Limits) {started now : ℚ}
    (hlast : started ≤ now) (wrote : Bool) :
    ∃ after, (restart limits started now wrote { w with clock := now }).file = some after ∧ ledger.elapsed_s ≤ after.elapsed_s ∧
      ∀ c, (restart limits started now wrote { w with clock := now }).controller = some c → ledger.elapsed_s ≤ elapsed now c := by
  unfold restart
  cases hinit : init w.file limits started with
  | error message => exact ⟨ledger, hledger, le_rfl, fun _ hc => (by cases hc)⟩
  | ok c =>
    cases wrote with
    | false => exact ⟨ledger, hledger, le_rfl, fun _ hc => (by cases hc)⟩
    | true =>
      have hstarted := init_spec hinit
      rcases hstarted.ledger with ⟨hnone, -⟩ | ⟨old, hold, -, hbefore, -⟩
      · cases hnone.symm.trans hledger
      · obtain rfl := Option.some.inj (hold.symm.trans hledger)
        have htime : old.elapsed_s ≤ elapsed now c := by
          unfold elapsed
          rw [hbefore, hstarted.time]
          linarith
        refine ⟨_, rfl, htime, fun c' hc' => ?_⟩
        obtain rfl := Option.some.inj hc'
        exact htime

/-- **The ledger accounts for every call**, in every run in which no call is started after
it has ended: neither ledger charges more calls than the limit; a call's usage is stored
once; a new controller refunds no call that `reserve` returned and takes no recorded time
back; and under a token limit a call is admitted only where all usage is known and the sum
is below the limit. -/
theorem ledger_accounts {events : List Event} {w : World} (hrun : run .initial events = some w)
    (hproper : Throughout step Unended .initial events) :
    (∀ ledger, (w.ledger = some ledger ∨ w.file = some ledger) →
      ∀ ceiling, ledger.limits.agent_calls = some ceiling → (charged ledger).length ≤ ceiling) ∧
    (∀ invocation, usage_changes invocation .initial events ≤ 1) ∧
    (∀ limits started now wrote w', step w (.restart limits started now wrote) = some w' →
      (∀ invocation ∈ w.granted, ∀ call, w.entry invocation = some call → (call.status = .reserved ∨ call.status = .running) →
        ∃ after, w'.entry invocation = some after ∧ after.status ≠ .not_started) ∧
      ∀ ledger, w.file = some ledger → ∃ after, w'.file = some after ∧ ledger.elapsed_s ≤ after.elapsed_s ∧
        ∀ c, w'.controller = some c → ledger.elapsed_s ≤ elapsed now c) ∧
    ∀ c invocation checked now new limit, w.controller = some c → reserve invocation checked now c = .ok new →
      c.limits.tokens = some limit →
        (∀ call ∈ charged c.state, call.status = .finished → ∃ usage, call.usage = some usage) ∧ used c.state < limit := by
  have hkept := run_kept initial_kept hproper hrun
  refine ⟨fun ledger hledger => ?_, usage_changes_le initial_kept hproper, ?_, ?_⟩
  · rcases hledger with hmemory | hfile
    · cases hc : w.controller with
      | none => exact (hkept.file ledger (by simpa [World.ledger, hc] using hmemory)).1
      | some c =>
        obtain rfl : c.state = ledger := by simpa [World.ledger, hc] using hmemory
        exact (hkept.memory c hc).1
    · exact (hkept.file ledger hfile).1
  · intro limits started now wrote w' hstep
    obtain ⟨hlast, rfl⟩ := step_restart hstep
    refine ⟨fun invocation hgranted call hcall hopen => ?_, fun ledger hledger => restart_time hledger limits hlast wrote⟩
    refine restart_charges hkept hgranted ⟨call, hcall, fun hstatus => ?_⟩ limits started now wrote
    simp [hstatus] at hopen
  · intro c invocation checked now new limit hc hreserve hlimit
    obtain ⟨hroom, -⟩ := reserve_spec hreserve
    exact ⟨hroom.known (by simp [hlimit]), hroom.spent limit hlimit⟩

/-- Two invocations after another, under a limit of one: the first was not started. -/
def released_slot : List Event :=
  [.restart { agent_calls := some 1 } 0 0 true, .reserve 1 0 0 true, .finish 1 none false 0 true, .reserve 2 0 0 true,
    .started_call 2 0 true]

theorem slot_reused : ∃ w, run .initial released_slot = some w ∧
    ∀ ledger, w.ledger = some ledger → ∀ ceiling, ledger.limits.agent_calls = some ceiling → (charged ledger).length ≤ ceiling := by
  have hrun : (run .initial released_slot).isSome = true := by decide +kernel
  obtain ⟨w, hrun⟩ := Option.isSome_iff_exists.mp hrun
  have hreserved : ((run .initial (released_slot.take 4)).bind (·.entry 2)).all fun call => decide (call.status = .reserved) := by
    decide +kernel
  have hproper : Throughout step Unended .initial released_slot := by
    refine ⟨trivial, fun w₁ h₁ => ⟨trivial, fun w₂ h₂ => ⟨trivial, fun w₃ h₃ => ⟨trivial, fun w₄ h₄ => ⟨fun call hcall => ?_, ?_⟩⟩⟩⟩⟩
    · have hfour : run .initial (released_slot.take 4) = some w₄ := by
        simp only [run, released_slot, List.take_succ_cons, List.take_zero, List.foldlM_cons, List.foldlM_nil, h₁, h₂, h₃, h₄,
          Option.bind_eq_bind, Option.bind_some, Option.pure_def]
      rw [hfour, Option.bind_some, hcall] at hreserved
      exact Or.inl (of_decide_eq_true hreserved)
    · exact fun _ _ => trivial
  exact ⟨w, hrun, fun ledger hledger => (ledger_accounts hrun hproper).1 ledger (Or.inl hledger)⟩

/-- The first one starts all the same, and two calls are charged. -/
theorem slot_charged_twice : ¬∀ events w, run .initial events = some w →
    ∀ ledger, w.ledger = some ledger → ∀ ceiling, ledger.limits.agent_calls = some ceiling → (charged ledger).length ≤ ceiling := by
  intro h
  have hbound : ((run .initial (released_slot ++ [.started_call 1 0 true])).bind World.ledger).all
      fun ledger => ledger.limits.agent_calls.all fun ceiling => decide ((charged ledger).length ≤ ceiling) := by
    simp only [Option.all_eq_true, decide_eq_true_eq, Option.bind_eq_some_iff]
    rintro ledger ⟨w, hrun, hledger⟩
    exact h _ w hrun ledger hledger
  exact absurd hbound (by decide +kernel)

end LeanFlow.Campaign
