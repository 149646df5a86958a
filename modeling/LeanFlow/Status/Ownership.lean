import LeanFlow.Status.Live

/-! Who changes the live status.

A claim or a save is refused while another verified process is alive. A heartbeat goes by
the PID alone, and normalizing touches a snapshot that is marked stale whoever owns it:
where neither makes a difference, only its owner changes a snapshot that is alive. -/
namespace LeanFlow.Status
open General

inductive Op where
  | claim (phase : StartupPhase) (heartbeat : String) (metadata : List (String × Json))
  | save (payload : Payload)
  | heartbeat (process_id : Option Int) (timestamp : String)
  | touch (timestamp event_type message : String)
  | load (seen : Payload)

section ownership

variable (py : Python)

def perform (world : World) : Op → Payload → Except OwnerConflict Payload
  | .claim phase heartbeat metadata, payload => mark_workflow_live_status_startup py world phase heartbeat metadata payload
  | .save replacement, payload => save_workflow_live_status py world replacement payload
  | .heartbeat process_id timestamp, payload => .ok (touch_workflow_runtime_heartbeat py world process_id timestamp payload)
  | .touch timestamp event_type message, payload => .ok (touch_workflow_live_status_from_activity py world timestamp event_type message payload)
  | .load seen, payload => .ok (load_workflow_live_status py world seen payload)

/-- The file after an operation: one that is refused leaves it. -/
def next (payload : Payload) (step : World × Op) : Payload :=
  match perform py step.1 step.2 payload with
  | .ok written => written
  | .error _ => payload

/-- Each step is some process, in the world as it is then. -/
def run (steps : List (World × Op)) (payload : Payload) : Payload := steps.foldl (next py) payload

/-! ### Owners -/

/-- Another process owns the snapshot, verified and alive. -/
def Foreign (world : World) (payload : Payload) : Prop := owner_is_live py world payload = true ∧ same_owner py world payload = false

/-- The calling process has claimed the snapshot: its PID and its token, which is not empty, are recorded. -/
def Claimed (world : World) (payload : Payload) : Prop :=
  (process_identity_from_mapping py payload).pid = world.self.pid ∧
    (process_identity_from_mapping py payload).token_sha256 = world.self.token_sha256 ∧ world.self.token_sha256 ≠ ""

/-- What the owner of a snapshot can rely on. -/
def Respects (world : World) (payload : Payload) : Op → Prop
  | .claim phase heartbeat metadata => ∀ written, perform py world (.claim phase heartbeat metadata) payload = .ok written → ¬ Foreign py world payload
  | .save replacement => ∀ written, perform py world (.save replacement) payload = .ok written → ¬ Foreign py world payload
  | .heartbeat process_id timestamp => next py payload (world, .heartbeat process_id timestamp) ≠ payload → Claimed py world payload
  | .touch timestamp event_type message => next py payload (world, .touch timestamp event_type message) ≠ payload → Claimed py world payload
  | .load seen => owner_is_live py world payload = true → next py payload (world, .load seen) = payload

/-- The PID that a heartbeat goes by is recorded for the caller only, and no live owner's
snapshot is marked stale with locks. -/
def Meets (world : World) (payload : Payload) : Op → Prop
  | .heartbeat process_id _ => integer py (payload.get? "process_id") = process_id.getD world.self.pid → Claimed py world payload
  | .touch _ _ _ => integer py (payload.get? "process_id") = world.self.pid → Claimed py world payload
  | .load _ => owner_is_live py world payload = true → (payload.get? "stale_snapshot").any truthy = true → integer py (payload.get? "held_locks") ≤ 0
  | _ => True

/-! ### Claims and saves -/

theorem refused {world : World} {payload : Payload} (h : Foreign py world payload) :
    (owner_is_live py world payload && !same_owner py world payload) = true := by
  rw [h.1, h.2]
  rfl

theorem save_respects (world : World) (replacement payload : Payload) : Respects py world payload (.save replacement) := by
  intro written hwritten hforeign
  rw [perform, save_workflow_live_status, if_pos (refused py hforeign)] at hwritten
  cases hwritten

theorem claim_respects (world : World) (phase : StartupPhase) (heartbeat : String) (metadata : List (String × Json)) (payload : Payload) :
    Respects py world payload (.claim phase heartbeat metadata) := by
  intro written hwritten hforeign
  rw [perform, mark_workflow_live_status_startup, if_pos (refused py hforeign)] at hwritten
  cases hwritten

/-! ### Normalizing -/

theorem integer_zero : integer py (some (.num 0)) = 0 := rfl

/-- Locks are dropped once. -/
theorem drop_again (payload : Payload) : drop_stale_locks py (drop_stale_locks py payload).1 = ((drop_stale_locks py payload).1, false) := by
  by_cases hdrop : ((payload.get? "stale_snapshot").any truthy && integer py (payload.get? "held_locks") > 0) = true
  · have hdropped : (drop_stale_locks py payload).1 =
        (setdefault payload "stale_held_locks" (.num (integer py (payload.get? "held_locks")))).set "held_locks" (.num 0) := by
      rw [drop_stale_locks, if_pos hdrop]
    rw [hdropped]
    generalize setdefault payload "stale_held_locks" (.num (integer py (payload.get? "held_locks"))) = kept
    rw [drop_stale_locks, Dict.get?_set_self, integer_zero]
    exact if_neg (by simp)
  · have hdropped : drop_stale_locks py payload = (payload, false) := by
      rw [drop_stale_locks]
      exact if_neg hdrop
    rw [hdropped, hdropped]

theorem mark_stale_process (payload : Payload) : (mark_stale py payload).get? "process_id" = some (.num 0) := by
  unfold mark_stale
  simp only
  split <;> split <;> simp [update, Dict.get?_set]

theorem mark_stale_locks (payload : Payload) : (mark_stale py payload).get? "held_locks" = some (.num 0) := by
  unfold mark_stale
  simp only
  split <;> split <;> simp [Dict.get?_set]

/-- Normalizing what is normalized changes nothing. -/
theorem normalize_again (world : World) (payload : Payload) : normalize py world (normalize py world payload).1 = ((normalize py world payload).1, false) := by
  have hdrop := drop_again py payload
  unfold normalize
  generalize drop_stale_locks py payload = dropped at hdrop
  obtain ⟨normalized, changed⟩ := dropped
  simp only at hdrop ⊢
  split
  · rename_i hkept
    rw [hdrop]
    simp only
    rw [if_pos hkept]
  · have hmarked : drop_stale_locks py (mark_stale py normalized) = (mark_stale py normalized, false) := by
      rw [drop_stale_locks, mark_stale_locks, integer_zero]
      exact if_neg (by simp)
    rw [hmarked]
    simp only
    rw [mark_stale_process, integer_zero]
    rfl

/-- A snapshot whose verified owner is alive is normal, unless it is marked stale with locks. -/
theorem normalize_live {world : World} {payload : Payload} (hlive : owner_is_live py world payload = true)
    (hlocks : (payload.get? "stale_snapshot").any truthy = true → integer py (payload.get? "held_locks") ≤ 0) :
    normalize py world payload = (payload, false) := by
  obtain ⟨hverifiable, hmatches⟩ := Bool.and_eq_true_iff.mp hlive
  have hdrop : drop_stale_locks py payload = (payload, false) := by
    rw [drop_stale_locks]
    refine if_neg fun hboth => ?_
    obtain ⟨hstale, hheld⟩ := Bool.and_eq_true_iff.mp hboth
    exact absurd (of_decide_eq_true hheld) (Int.not_lt.mpr (hlocks hstale))
  have hprocess : workflow_process_identity_is_live py world payload = true := by
    rw [workflow_process_identity_is_live, if_pos hverifiable]
    exact hmatches
  rw [normalize, hdrop]
  simp only
  rw [hprocess, Bool.or_true]
  rfl

theorem load_respects {world : World} {seen payload : Payload} (hmeets : Meets py world payload (.load seen)) :
    Respects py world payload (.load seen) := by
  intro hlive
  show load_workflow_live_status py world seen payload = payload
  rw [load_workflow_live_status, normalize_live py hlive (hmeets hlive), Bool.and_false]
  rfl

/-! ### Heartbeats -/

theorem heartbeat_respects {world : World} {process_id : Option Int} {timestamp : String} {payload : Payload}
    (hmeets : Meets py world payload (.heartbeat process_id timestamp)) : Respects py world payload (.heartbeat process_id timestamp) := by
  intro hchanged
  by_cases hpid : integer py (payload.get? "process_id") = process_id.getD world.self.pid
  · exact hmeets hpid
  · refine absurd ?_ hchanged
    show touch_workflow_runtime_heartbeat py world process_id timestamp payload = payload
    rw [touch_workflow_runtime_heartbeat, if_pos hpid]

theorem touch_respects {world : World} {timestamp event_type message : String} {payload : Payload}
    (hmeets : Meets py world payload (.touch timestamp event_type message)) : Respects py world payload (.touch timestamp event_type message) := by
  intro hchanged
  by_cases hpid : integer py (payload.get? "process_id") = world.self.pid
  · exact hmeets hpid
  · refine absurd ?_ hchanged
    show touch_workflow_live_status_from_activity py world timestamp event_type message payload = payload
    rw [touch_workflow_live_status_from_activity, if_pos hpid]

/-- One operation that goes by a PID of its own respects the owner. -/
theorem op_respects {world : World} {payload : Payload} {op : Op} (hmeets : Meets py world payload op) : Respects py world payload op := by
  cases op with
  | claim phase heartbeat metadata => exact claim_respects py world phase heartbeat metadata payload
  | save replacement => exact save_respects py world replacement payload
  | heartbeat process_id timestamp => exact heartbeat_respects py hmeets
  | touch timestamp event_type message => exact touch_respects py hmeets
  | load seen => exact load_respects py hmeets

/-- In a run whose operations meet the condition, each respects the owner; normalizing is
idempotent in every world. -/
theorem status_owned (steps : List (World × Op)) (payload : Payload)
    (h : ∀ before step after, steps = before ++ step :: after → Meets py step.1 (run py before payload) step.2) :
    (∀ before step after, steps = before ++ step :: after → Respects py step.1 (run py before payload) step.2) ∧
      ∀ world payload, normalize py world (normalize py world payload).1 = ((normalize py world payload).1, false) :=
  ⟨fun before step after heq => op_respects py (h before step after heq), normalize_again py⟩

end ownership

/-! ### A PID that is used again -/

/-- Texts as they are, without white space and capitals. -/
def plain : Python where
  int_of _ := none
  str_of
    | .str value => value
    | _ => ""
  strip := id
  lower := id

/-- A process with PID 5, alone. -/
def alone (token : String) : World where
  self := ⟨5, 5, 5, token⟩
  process _ := none
  seems_alive _ := false

def claim : Op := .claim .starting "noon" []
def beat : Op := .heartbeat none "one"

theorem claim_a : process_identity_from_mapping plain (run plain [(alone "a", claim)] .empty) = ⟨5, 5, 5, "a"⟩ := by decide +kernel

theorem one_owner : Respects plain (alone "a") (run plain [(alone "a", claim)] .empty) beat := by
  refine (status_owned plain [(alone "a", claim), (alone "a", beat)] .empty ?_).1 [(alone "a", claim)] (alone "a", beat) [] rfl
  intro before step after heq
  rcases before with _ | ⟨first, _ | ⟨second, before⟩⟩
  · cases heq
    trivial
  · cases heq
    intro _
    rw [Claimed, claim_a]
    exact ⟨rfl, rfl, by decide⟩
  · cases before <;> cases heq

/-- The first process claims the snapshot and dies; the next one with its PID beats. -/
theorem pid_reused : ¬ ∀ (py : Python) (steps : List (World × Op)) (payload : Payload) before step after,
    steps = before ++ step :: after → Respects py step.1 (run py before payload) step.2 := by
  intro h
  have hbeat := h plain [(alone "a", claim), (alone "b", beat)] .empty [(alone "a", claim)] (alone "b", beat) [] rfl
  have hchanged : next plain (run plain [(alone "a", claim)] .empty) (alone "b", beat) ≠ run plain [(alone "a", claim)] .empty := by
    intro hsame
    have htime := congrArg (fun payload => text plain (payload.get? "updated_at")) hsame
    revert htime
    decide +kernel
  have hclaimed := hbeat hchanged
  rw [Claimed, claim_a] at hclaimed
  exact absurd hclaimed.2.1 (by decide)

end LeanFlow.Status
