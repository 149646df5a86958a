import LeanFlow.Campaign.Limits
import LeanFlow.General.Runs
import Mathlib.Tactic.Linarith

/-! Invocations are charged once.

The calls of all threads, and the controllers that come and go, are one sequence of
events on a file and the controller that runs. What the events keep is `Kept`: neither
the ledger in memory nor the one on file charges more calls than the limit, and the file
is an earlier ledger of the one in memory, so a controller that starts from it refunds no
call. All of it rests on one condition, that `started_call` is not called on an invocation
that has ended (`Unended`): it would charge a released invocation again. -/
namespace LeanFlow.Campaign
open General

/-- The ledger's file, the running controller, the last clock reading, the identifiers
drawn so far, and those that `reserve` has returned. -/
structure World where
  file : Option Ledger
  controller : Option CampaignLimits
  clock : ℚ
  drawn : List Uuid
  granted : List Uuid

/-- A call with its readings of the clock, and whether its write succeeds. -/
inductive Event where
  | reserve (invocation : Uuid) (checked now : ℚ) (wrote : Bool)
  | started_call (invocation : Uuid) (now : ℚ) (wrote : Bool)
  | finish (invocation : Uuid) (usage : Option Usage) (started : Bool) (now : ℚ) (wrote : Bool)
  | persist (now : ℚ) (wrote : Bool)
  | restart (limits : Limits) (started now : ℚ) (wrote : Bool)

/-- What a call leaves in memory, where it has something to write. -/
def perform (c : CampaignLimits) : Event → Option CampaignLimits
  | .reserve invocation checked now _ => (reserve invocation checked now c).toOption
  | .started_call invocation now _ => started_call invocation now c
  | .finish invocation usage started now _ => (finish invocation usage started now c).join
  | .persist now _ => some (persist now c)
  | .restart .. => none

def Event.wrote : Event → Bool
  | .reserve _ _ _ wrote | .started_call _ _ wrote | .finish _ _ _ _ wrote | .persist _ wrote | .restart _ _ _ wrote => wrote

/-- The readings of the clock, the first and the last. -/
def Event.readings : Event → ℚ × ℚ
  | .reserve _ checked now _ => (checked, now)
  | .started_call _ now _ | .finish _ _ _ now _ | .persist now _ => (now, now)
  | .restart _ started now _ => (started, now)

def Event.identifier : Event → List Uuid
  | .reserve invocation _ _ _ => [invocation]
  | _ => []

/-- A call of the running controller. -/
def act (c : CampaignLimits) (event : Event) (w : World) : World :=
  match perform c event with
  | none => w
  | some new =>
    { w with
      controller := some new
      file := if event.wrote then some new.state else w.file
      drawn := event.identifier ++ w.drawn
      granted := if event.wrote then event.identifier ++ w.granted else w.granted }

/-- The controller that was there is gone, and another one starts. A first write that
fails leaves none. -/
def restart (limits : Limits) (started now : ℚ) (wrote : Bool) (w : World) : World :=
  match init w.file limits started with
  | .error _ => { w with controller := none }
  | .ok c =>
    if wrote then { w with controller := some (persist now c), file := some (persist now c).state }
    else { w with controller := none }

/-- One event: the clock of a controller does not run backwards, and no identifier is
drawn twice. -/
def step (w : World) (event : Event) : Option World :=
  let (first, last) := event.readings
  if last < first then none
  else match event, w.controller with
    | .restart limits started now wrote, _ => some (restart limits started now wrote { w with clock := last })
    | _, none => none
    | _, some c =>
      if first < w.clock ∨ event.identifier.any (· ∈ w.drawn) then none
      else some (act c event { w with clock := last })

def run (w : World) (events : List Event) : Option World := events.foldlM step w

/-- Before the first controller. -/
def World.initial : World := ⟨none, none, 0, [], []⟩

/-- The ledger as it stands: in memory, or on file while no controller runs. -/
def World.ledger (w : World) : Option Ledger :=
  match w.controller with
  | some c => some c.state
  | none => w.file

def World.entry (w : World) (invocation : Uuid) : Option Invocation :=
  w.ledger.bind fun ledger => ledger.invocations.get? invocation

/-- The condition: the invocation has not ended. -/
def Unended (w : World) : Event → Prop
  | .started_call invocation _ _ =>
    ∀ call, w.entry invocation = some call → call.status = .reserved ∨ call.status = .running
  | _ => True

/-! ### What a call changes -/

/-- The ledger admits another call. -/
structure Room (limits : Limits) (ledger : Ledger) : Prop where
  free : ∀ ceiling, limits.agent_calls = some ceiling → (charged ledger).length < ceiling
  known : limits.tokens ≠ none → ∀ call ∈ charged ledger, call.status = .finished → ∃ usage, call.usage = some usage
  spent : ∀ limit, limits.tokens = some limit → used ledger < limit

theorem reserve_spec {c new : CampaignLimits} {invocation : Uuid} {checked now : ℚ}
    (h : reserve invocation checked now c = .ok new) :
    Room c.limits c.state ∧ new = persist now
      { c with state := { c.state with invocations := c.state.invocations.set invocation ⟨.reserved, none, false⟩ } } := by
  unfold reserve at h
  split at h
  · cases h
  · split at h
    · cases h
    · rename_i hcalls
      split at h
      · cases h
      · rename_i hknown
        split at h
        · cases h
        · rename_i hspent
          obtain rfl := Except.ok.inj h
          refine ⟨⟨fun ceiling hceiling => ?_, fun htokens call hcall hfinished => ?_, fun limit hlimit => ?_⟩, rfl⟩
          · simpa [hceiling] using hcalls
          · refine Option.ne_none_iff_exists'.mp fun hnone => hknown ⟨Option.isSome_iff_ne_none.mpr htokens, ?_⟩
            exact List.any_eq_true.mpr ⟨call, hcall, by simp [hfinished, hnone]⟩
          · simpa [hlimit] using hspent

/-- What a call does to the invocations. -/
inductive Change (c : CampaignLimits) : Event → Dict Uuid Invocation → Prop where
  | reserved (invocation : Uuid) (checked now : ℚ) (wrote : Bool) (room : Room c.limits c.state) :
      Change c (.reserve invocation checked now wrote) (c.state.invocations.set invocation ⟨.reserved, none, false⟩)
  | started (invocation : Uuid) (now : ℚ) (wrote : Bool) (call : Invocation)
      (present : c.state.invocations.get? invocation = some call) :
      Change c (.started_call invocation now wrote) (c.state.invocations.set invocation { call with status := .running })
  | ended (invocation : Uuid) (usage : Option Usage) (started : Bool) (now : ℚ) (wrote : Bool) (call : Invocation)
      (present : c.state.invocations.get? invocation = some call)
      (unended : call.status ≠ .finished ∧ call.status ≠ .not_started) :
      Change c (.finish invocation usage started now wrote) (c.state.invocations.set invocation
        { call with status := if started then .finished else .not_started, usage := usage })
  | kept (now : ℚ) (wrote : Bool) : Change c (.persist now wrote) c.state.invocations

theorem perform_spec {c new : CampaignLimits} {event : Event} (h : perform c event = some new) :
    ∃ invocations, Change c event invocations ∧
      new = persist event.readings.2 { c with state := { c.state with invocations := invocations } } := by
  cases event with
  | reserve invocation checked now wrote =>
    cases hreserve : reserve invocation checked now c with
    | error message => simp [perform, hreserve, Except.toOption] at h
    | ok after =>
      obtain rfl : after = new := by simpa [perform, hreserve, Except.toOption] using h
      obtain ⟨hroom, rfl⟩ := reserve_spec hreserve
      exact ⟨_, .reserved invocation checked now wrote hroom, rfl⟩
  | started_call invocation now wrote =>
    obtain ⟨call, hcall, rfl⟩ := Option.map_eq_some_iff.mp h
    exact ⟨_, .started invocation now wrote call hcall, rfl⟩
  | finish invocation usage started now wrote =>
    obtain ⟨call, hcall, hnew⟩ := Option.map_eq_some_iff.mp (Option.join_eq_some_iff.mp h)
    split at hnew
    · cases hnew
    · rename_i hstatus
      obtain rfl := Option.some.inj hnew
      exact ⟨_, .ended invocation usage started now wrote call hcall (by simpa using hstatus), rfl⟩
  | persist now wrote =>
    obtain rfl := Option.some.inj h
    exact ⟨_, .kept now wrote, rfl⟩
  | restart limits started now wrote => cases h

/-! ### Counting -/

/-- The values under `q`, after an assignment. -/
theorem countP_assign {κ α : Type} [DecidableEq κ] (q : α → Bool) (k : κ) (v : α) (l : List (κ × α)) :
    ((Dict.assign k v l).map Prod.snd).countP q + ((Dict.find k l).toList.countP q) =
      (l.map Prod.snd).countP q + [v].countP q := by
  induction l with
  | nil => simp [Dict.assign, Dict.find]
  | cons p l ih =>
    by_cases hp : p.1 = k
    · simp only [Dict.assign, Dict.find, if_pos hp, List.map_cons, List.countP_cons, Option.toList, List.countP_nil]
      omega
    · simp only [Dict.assign, Dict.find, if_neg hp, List.map_cons, List.countP_cons] at ih ⊢
      omega

theorem charged_length (ledger : Ledger) :
    (charged ledger).length = (ledger.invocations.items.map Prod.snd).countP (·.status ≠ .not_started) :=
  (List.countP_eq_length_filter ..).symm

/-- An assignment charges no more, where its value is not charged or replaces one that is. -/
theorem charged_set_le {ledger : Ledger} {invocation : Uuid} {call : Invocation}
    (h : call.status ≠ .not_started → ∃ old, ledger.invocations.get? invocation = some old ∧ old.status ≠ .not_started) :
    (charged { ledger with invocations := ledger.invocations.set invocation call }).length ≤ (charged ledger).length := by
  have hcount := countP_assign (·.status ≠ .not_started) invocation call ledger.invocations.items
  rw [charged_length, charged_length]
  simp only [Dict.set]
  by_cases hcall : call.status = .not_started
  · have hnone : [call].countP (·.status ≠ .not_started) = 0 := by simp [hcall]
    omega
  · obtain ⟨old, hold, hstatus⟩ := h hcall
    rw [show Dict.find invocation ledger.invocations.items = some old from hold] at hcount
    simp only [Option.toList, List.countP_singleton, ne_eq, hcall, hstatus, not_false_eq_true, decide_true] at hcount ⊢
    omega

theorem charged_set_le_succ (ledger : Ledger) (invocation : Uuid) (call : Invocation) :
    (charged { ledger with invocations := ledger.invocations.set invocation call }).length ≤ (charged ledger).length + 1 := by
  have hcount := countP_assign (·.status ≠ .not_started) invocation call ledger.invocations.items
  have hone : [call].countP (·.status ≠ .not_started) ≤ 1 := List.countP_le_length
  rw [charged_length, charged_length]
  simp only [Dict.set]
  omega

/-! ### The invariant -/

def Bounded (ledger : Ledger) : Prop :=
  ∀ ceiling, ledger.limits.agent_calls = some ceiling → (charged ledger).length ≤ ceiling

def Released (ledger : Ledger) (invocation : Uuid) : Prop :=
  ∃ call, ledger.invocations.get? invocation = some call ∧ call.status = .not_started

/-- An earlier ledger: nothing of it was dropped or charged again. -/
structure Behind (old new : Ledger) : Prop where
  keys : ∀ invocation ∈ old.invocations.keys, invocation ∈ new.invocations.keys
  released : ∀ invocation, Released old invocation → Released new invocation

theorem Behind.refl (ledger : Ledger) : Behind ledger ledger := ⟨fun _ h => h, fun _ h => h⟩

theorem Behind.trans {a b c : Ledger} (h : Behind a b) (h' : Behind b c) : Behind a c :=
  ⟨fun i hi => h'.keys i (h.keys i hi), fun i hi => h'.released i (h.released i hi)⟩

structure Kept (w : World) : Prop where
  file : ∀ ledger, w.file = some ledger → Bounded ledger ∧ ∀ invocation ∈ ledger.invocations.keys, invocation ∈ w.drawn
  memory : ∀ c, w.controller = some c →
    Bounded c.state ∧ (∀ invocation ∈ c.state.invocations.keys, invocation ∈ w.drawn) ∧ c.state.limits = c.limits
  granted : ∀ invocation ∈ w.granted, ∃ ledger, w.file = some ledger ∧ invocation ∈ ledger.invocations.keys
  behind : ∀ c ledger, w.controller = some c → w.file = some ledger →
    Behind ledger c.state ∧ ledger.elapsed_s ≤ elapsed w.clock c

theorem initial_kept : Kept .initial :=
  ⟨fun _ h => (by cases h), fun _ h => (by cases h), fun _ h => absurd h List.not_mem_nil, fun _ _ h => (by cases h)⟩

theorem behind_set {ledger : Ledger} {invocation : Uuid} {call : Invocation} (elapsed_s : ℚ)
    (h : Released ledger invocation → call.status = .not_started) :
    Behind ledger { ledger with elapsed_s := elapsed_s, invocations := ledger.invocations.set invocation call } where
  keys i hi := (Dict.mem_keys_assign ..).mpr (Or.inr hi)
  released i hi := by
    by_cases hkey : i = invocation
    · subst hkey
      exact ⟨call, Dict.get?_set_self .., h hi⟩
    · obtain ⟨old, hold, hstatus⟩ := hi
      exact ⟨old, (Dict.get?_set_ne _ _ hkey).trans hold, hstatus⟩

/-- What a proper call of the controller leaves: an earlier ledger is not overcharged, and
neither is this one. -/
theorem change_kept {c : CampaignLimits} {event : Event} {invocations : Dict Uuid Invocation} (h : Change c event invocations)
    (elapsed_s : ℚ) (hfresh : ∀ invocation ∈ event.identifier, invocation ∉ c.state.invocations.keys)
    (hproper : ∀ invocation now wrote, event = .started_call invocation now wrote → ¬Released c.state invocation)
    (hbounded : Bounded c.state) (hlimits : c.state.limits = c.limits) :
    Behind c.state { c.state with elapsed_s := elapsed_s, invocations := invocations } ∧
      Bounded { c.state with elapsed_s := elapsed_s, invocations := invocations } := by
  cases h with
  | reserved invocation checked now wrote room =>
    refine ⟨behind_set elapsed_s fun ⟨call, hcall, _⟩ => ?_, fun ceiling hceiling => ?_⟩
    · exact absurd ((Dict.mem_keys_iff ..).mpr ⟨call, hcall⟩) (hfresh invocation (List.mem_singleton_self _))
    · exact (charged_set_le_succ c.state invocation _).trans (room.free ceiling (hlimits ▸ hceiling))
  | started invocation now wrote call present =>
    have hreleased := hproper invocation now wrote rfl
    refine ⟨behind_set elapsed_s fun hr => absurd hr hreleased, fun ceiling hceiling => ?_⟩
    refine (@charged_set_le c.state _ _ fun _ => ⟨call, present, fun hstatus => hreleased ⟨call, present, hstatus⟩⟩).trans ?_
    exact hbounded ceiling hceiling
  | ended invocation usage started now wrote call present unended =>
    refine ⟨behind_set elapsed_s fun ⟨old, hold, hstatus⟩ => ?_, fun ceiling hceiling => ?_⟩
    · obtain rfl := Option.some.inj (present.symm.trans hold)
      exact absurd hstatus unended.2
    · exact (@charged_set_le c.state _ _ fun _ => ⟨call, present, unended.2⟩).trans (hbounded ceiling hceiling)
  | kept now wrote => exact ⟨⟨fun _ h => h, fun _ h => h⟩, hbounded⟩

/-! ### A controller starts -/

@[simp] theorem interrupt_status (call : Invocation) : (interrupt call).status = .not_started ↔ call.status = .not_started := by
  cases call with
  | mk status usage interrupted => cases status <;> simp [interrupt]

theorem interrupt_ended (call : Invocation) : (interrupt call).status = .finished ∨ (interrupt call).status = .not_started := by
  cases call with
  | mk status usage interrupted => cases status <;> simp [interrupt]

theorem find_map (f : Invocation → Invocation) (invocation : Uuid) (l : List (Uuid × Invocation)) :
    Dict.find invocation (l.map fun item => (item.1, f item.2)) = (Dict.find invocation l).map f := by
  induction l with
  | nil => rfl
  | cons p l ih =>
    simp only [List.map_cons, Dict.find]
    split
    · rfl
    · exact ih

theorem get?_interrupt_all (invocations : Dict Uuid Invocation) (invocation : Uuid) :
    (interrupt_all invocations).get? invocation = (invocations.get? invocation).map interrupt :=
  find_map interrupt invocation invocations.items

theorem keys_interrupt_all (invocations : Dict Uuid Invocation) : (interrupt_all invocations).keys = invocations.keys :=
  List.map_map ..

theorem charged_interrupt_all (ledger : Ledger) :
    (charged { ledger with invocations := interrupt_all ledger.invocations }).length = (charged ledger).length := by
  rw [charged_length, charged_length]
  simp only [interrupt_all, List.map_map, List.countP_map]
  refine List.countP_congr fun item _ => ?_
  simp

/-- The ledger a new controller starts from: of the file, or empty. -/
structure Started (file : Option Ledger) (started : ℚ) (c : CampaignLimits) : Prop where
  limits : c.state.limits = c.limits
  time : c.started = started
  ended : ∀ invocation call, c.state.invocations.get? invocation = some call → call.status = .finished ∨ call.status = .not_started
  ledger : (file = none ∧ c.state.invocations = .empty) ∨ ∃ old, file = some old ∧ c.state.limits = old.limits ∧
    c.elapsed_before = old.elapsed_s ∧ c.state.invocations = interrupt_all old.invocations

theorem init_spec {file : Option Ledger} {limits : Limits} {started : ℚ} {c : CampaignLimits}
    (h : init file limits started = .ok c) : Started file started c := by
  have hended (old : Dict Uuid Invocation) (invocation : Uuid) (call : Invocation)
      (hcall : (interrupt_all old).get? invocation = some call) : call.status = .finished ∨ call.status = .not_started := by
    rw [get?_interrupt_all] at hcall
    obtain ⟨before, -, rfl⟩ := Option.map_eq_some_iff.mp hcall
    exact interrupt_ended before
  cases file with
  | none =>
    obtain rfl := Except.ok.inj h
    exact ⟨rfl, rfl, hended .empty, Or.inl ⟨rfl, rfl⟩⟩
  | some old =>
    simp only [init] at h
    split at h
    · cases h
    · rename_i hsame
      obtain rfl := Except.ok.inj h
      have hlimits : old.limits = limits := by simpa using (not_or.mp hsame).2
      exact ⟨hlimits, rfl, hended old.invocations, Or.inr ⟨old, rfl, rfl, rfl, rfl⟩⟩

theorem Started.bounded {file : Option Ledger} {started : ℚ} {c : CampaignLimits} (h : Started file started c)
    (hfile : ∀ ledger, file = some ledger → Bounded ledger) (elapsed_s : ℚ) :
    Bounded { c.state with elapsed_s := elapsed_s } := by
  intro ceiling hceiling
  rcases h.ledger with ⟨-, hempty⟩ | ⟨old, hold, hlimits, -, hinterrupted⟩
  · rw [charged_length]
    simp [hempty, Dict.empty]
  · have hcount := charged_interrupt_all old
    rw [charged_length] at hcount ⊢
    rw [hinterrupted, hcount]
    exact hfile old hold ceiling (hlimits ▸ hceiling)

/-! ### One event -/

/-- Every event is a call of the controller there is, or another controller. -/
theorem step_cases {w w' : World} {event : Event} (h : step w event = some w') :
    event.readings.1 ≤ event.readings.2 ∧
      ((∃ limits started now wrote, event = .restart limits started now wrote ∧
          w' = restart limits started now wrote { w with clock := now }) ∨
        ∃ c, w.controller = some c ∧ w.clock ≤ event.readings.1 ∧ (∀ invocation ∈ event.identifier, invocation ∉ w.drawn) ∧
          w' = act c event { w with clock := event.readings.2 }) := by
  unfold step at h
  dsimp only at h
  split at h
  · cases h
  · rename_i hreadings
    refine ⟨not_lt.mp hreadings, ?_⟩
    split at h
    · exact Or.inl ⟨_, _, _, _, rfl, (Option.some.inj h).symm⟩
    · cases h
    · rename_i c _ hc
      split at h
      · cases h
      · rename_i hguard
        obtain ⟨hclock, hfresh⟩ := not_or.mp hguard
        exact Or.inr ⟨c, hc, not_lt.mp hclock, fun i hi hdrawn => hfresh (List.any_eq_true.mpr ⟨i, hi, by simpa using hdrawn⟩), (Option.some.inj h).symm⟩

theorem act_kept {w : World} {c : CampaignLimits} {event : Event} (h : Kept w) (hc : w.controller = some c)
    (hfirst : w.clock ≤ event.readings.1) (hlast : event.readings.1 ≤ event.readings.2)
    (hfresh : ∀ invocation ∈ event.identifier, invocation ∉ w.drawn) (hproper : Unended w event) :
    Kept (act c event { w with clock := event.readings.2 }) := by
  obtain ⟨hbounded, hdrawn, hlimits⟩ := h.memory c hc
  have hclock : elapsed w.clock c ≤ elapsed event.readings.2 c := by
    unfold elapsed
    linarith
  unfold act
  cases hperform : perform c event with
  | none =>
    refine ⟨h.file, h.memory, h.granted, fun c' ledger hc' hledger => ?_⟩
    obtain rfl := Option.some.inj (hc.symm.trans hc')
    exact ⟨(h.behind c ledger hc hledger).1, (h.behind c ledger hc hledger).2.trans hclock⟩
  | some new =>
    obtain ⟨invocations, hchange, rfl⟩ := perform_spec hperform
    have hunreleased (invocation : Uuid) (now : ℚ) (wrote : Bool) (hevent : event = .started_call invocation now wrote) :
        ¬Released c.state invocation := by
      rintro ⟨call, hcall, hstatus⟩
      subst hevent
      have hopen := hproper call (by simp [World.entry, World.ledger, hc, hcall])
      simp [hstatus] at hopen
    obtain ⟨hbehind, hnew⟩ := change_kept hchange (elapsed event.readings.2 c)
      (fun i hi hmem => hfresh i hi (hdrawn i hmem)) hunreleased hbounded hlimits
    have hkeys (i : Uuid) (hi : i ∈ invocations.keys) : i ∈ event.identifier ++ w.drawn := by
      cases hchange with
      | reserved invocation checked now wrote room =>
        rcases (Dict.mem_keys_assign ..).mp hi with rfl | hold
        · exact List.mem_cons_self ..
        · exact List.mem_cons_of_mem _ (hdrawn i hold)
      | started invocation now wrote call present =>
        rcases (Dict.mem_keys_assign ..).mp hi with rfl | hold
        · exact hdrawn _ ((Dict.mem_keys_iff ..).mpr ⟨call, present⟩)
        · exact hdrawn i hold
      | ended invocation usage started now wrote call present unended =>
        rcases (Dict.mem_keys_assign ..).mp hi with rfl | hold
        · exact hdrawn _ ((Dict.mem_keys_iff ..).mpr ⟨call, present⟩)
        · exact hdrawn i hold
      | kept now wrote => exact hdrawn i hi
    have hgrants (i : Uuid) (hi : i ∈ event.identifier) : i ∈ invocations.keys := by
      cases hchange with
      | reserved invocation checked now wrote room =>
        obtain rfl := List.mem_singleton.mp hi
        exact (Dict.mem_keys_assign ..).mpr (Or.inl rfl)
      | _ => cases hi
    cases hwrote : event.wrote with
    | true =>
      refine ⟨fun ledger hledger => ?_, fun c' hc' => ?_, fun i hi => ⟨_, rfl, ?_⟩, fun c' ledger hc' hledger => ?_⟩
      · obtain rfl := Option.some.inj hledger
        exact ⟨hnew, hkeys⟩
      · obtain rfl := Option.some.inj hc'
        exact ⟨hnew, hkeys, hlimits⟩
      · rcases List.mem_append.mp hi with hnew | hold
        · exact hgrants i hnew
        · obtain ⟨ledger, hledger, hmem⟩ := h.granted i hold
          exact hbehind.keys i ((h.behind c ledger hc hledger).1.keys i hmem)
      · obtain rfl := Option.some.inj hledger
        obtain rfl := Option.some.inj hc'
        exact ⟨.refl _, le_rfl⟩
    | false =>
      refine ⟨fun ledger hledger => ?_, fun c' hc' => ?_, h.granted, fun c' ledger hc' hledger => ?_⟩
      · exact ⟨(h.file ledger hledger).1, fun i hi => List.mem_append_right _ ((h.file ledger hledger).2 i hi)⟩
      · obtain rfl := Option.some.inj hc'
        exact ⟨hnew, hkeys, hlimits⟩
      · obtain rfl := Option.some.inj hc'
        exact ⟨(h.behind c ledger hc hledger).1.trans hbehind, (h.behind c ledger hc hledger).2.trans hclock⟩

theorem restart_kept {w : World} (h : Kept w) (limits : Limits) (started now : ℚ) (wrote : Bool) :
    Kept (restart limits started now wrote { w with clock := now }) := by
  have hnone : Kept { w with clock := now, controller := none } :=
    ⟨h.file, fun _ hc => (by cases hc), h.granted, fun _ _ hc => (by cases hc)⟩
  unfold restart
  cases hinit : init w.file limits started with
  | error message => exact hnone
  | ok c =>
    cases wrote with
    | false => exact hnone
    | true =>
      have hstarted := init_spec hinit
      have hbounded := hstarted.bounded (fun ledger hledger => (h.file ledger hledger).1) (elapsed now c)
      have hkeys (i : Uuid) (hi : i ∈ c.state.invocations.keys) : i ∈ w.drawn := by
        rcases hstarted.ledger with ⟨-, hempty⟩ | ⟨old, hold, -, -, hinterrupted⟩
        · rw [hempty] at hi
          cases hi
        · rw [hinterrupted, keys_interrupt_all] at hi
          exact (h.file old hold).2 i hi
      refine ⟨fun ledger hledger => ?_, fun c' hc' => ?_, fun i hi => ⟨_, rfl, ?_⟩, fun c' ledger hc' hledger => ?_⟩
      · obtain rfl := Option.some.inj hledger
        exact ⟨hbounded, hkeys⟩
      · obtain rfl := Option.some.inj hc'
        exact ⟨hbounded, hkeys, hstarted.limits⟩
      · obtain ⟨ledger, hledger, hmem⟩ := h.granted i hi
        rcases hstarted.ledger with ⟨hfile, -⟩ | ⟨old, hold, -, -, hinterrupted⟩
        · cases hfile.symm.trans hledger
        · obtain rfl := Option.some.inj (hold.symm.trans hledger)
          show i ∈ c.state.invocations.keys
          rw [hinterrupted, keys_interrupt_all]
          exact hmem
      · obtain rfl := Option.some.inj hledger
        obtain rfl := Option.some.inj hc'
        exact ⟨.refl _, le_rfl⟩

theorem step_kept {w w' : World} {event : Event} (h : Kept w) (hproper : Unended w event) (hstep : step w event = some w') :
    Kept w' := by
  obtain ⟨hlast, hcases⟩ := step_cases hstep
  rcases hcases with ⟨limits, started, now, wrote, rfl, rfl⟩ | ⟨c, hc, hfirst, hfresh, rfl⟩
  · exact restart_kept h limits started now wrote
  · exact act_kept h hc hfirst hlast hfresh hproper

theorem run_kept {w w' : World} {events : List Event} (h : Kept w) (hproper : Throughout step Unended w events)
    (hrun : run w events = some w') : Kept w' :=
  hproper.preserves (fun _ _ _ hw hok hstep => step_kept hw hok hstep) h hrun

end LeanFlow.Campaign
