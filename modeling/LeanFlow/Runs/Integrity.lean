import LeanFlow.General.Except
import Mathlib.Data.List.Basic

/-! Two readers of a run's hot stream.

`_read_hot_stream` keeps the events for the metrics, `_summarize_run` counts and hashes
them for the list of runs. Both go through the lines of the bytes, and say whether all of
them are events of the run; what they catch of the decoder, and whether they strip a line
before it, differs. -/
namespace LeanFlow.Runs

abbrev Digest := List Char

/-- What `json.loads` makes of bytes. A number with too many digits, or a nesting too
deep, is neither a `JSONDecodeError` nor a `UnicodeError`. -/
inductive Parsed (Event : Type) where
  | decode_error
  | unicode_error
  | raises
  | other
  | object (event : Event)

/-- What `_coerce_exit_code` makes of a value: `int()` of an infinity overflows. -/
inductive Coerced where
  | value (code : Option Int)
  | overflow
deriving DecidableEq

/-- The decoder, the fields of an event that are read, its canonical bytes and the digest
of such bytes. `exit_code` is that of the event's details. -/
structure Codec (Event : Type) where
  loads : List UInt8 → Parsed Event
  run_id : Event → List Char
  type : Event → List Char
  event_id : Event → List Char
  exit_code : Event → Coerced
  dumps : Event → List UInt8
  sha256 : List UInt8 → Digest

variable {Event : Type} (D : Codec Event) (run_id : List Char)

/-! ### Lines -/

/-- `bytes.splitlines()` -/
def byte_lines : List UInt8 → List (List UInt8)
  | [] => []
  | [b] => if b = 10 ∨ b = 13 then [[]] else [[b]]
  | b :: c :: rest =>
    if b = 13 ∧ c = 10 then [] :: byte_lines rest
    else if b = 10 ∨ b = 13 then [] :: byte_lines (c :: rest)
    else match byte_lines (c :: rest) with
      | [] => [[b]]
      | line :: lines => (b :: line) :: lines

def blank_byte (b : UInt8) : Bool := b = 32 || (9 ≤ b && b ≤ 13)

/-- `bytes.strip()` -/
def strip_bytes (line : List UInt8) : List UInt8 := ((line.dropWhile blank_byte).reverse.dropWhile blank_byte).reverse

/-- `raw and not raw.endswith(b"\n")` fails. -/
def ends_whole (raw : List UInt8) : Bool := raw.isEmpty || raw.getLast? = some 10

/-! ### `_read_hot_stream` -/

structure RunStream (Event : Type) where
  events : List Event
  integrity_complete : Bool

def hot_line (stream : RunStream Event) (line : List UInt8) : Option (RunStream Event) :=
  if strip_bytes line = [] then some stream
  else match D.loads line with
    | .decode_error => some { stream with integrity_complete := false }
    | .unicode_error => none
    | .raises => none
    | .other => some { stream with integrity_complete := false }
    | .object event =>
      if D.run_id event ≠ run_id then some { stream with integrity_complete := false }
      else some { stream with events := stream.events ++ [event] }

/-- `none` where it raises; a file that cannot be read is `none`. -/
def read_hot_stream : Option (List UInt8) → Option (RunStream Event)
  | none => some ⟨[], false⟩
  | some raw => (byte_lines raw).foldlM (hot_line D run_id) ⟨[], ends_whole raw⟩

/-- What `_events_sha256` hashes. -/
def hashed (events : List Event) : List UInt8 := events.flatMap fun event => D.dumps event ++ [10]

def events_sha256 (events : List Event) : Digest := D.sha256 (hashed D events)

/-! ### `_summarize_run` -/

/-- The loop's variables: `stream_digest` is what it was updated with. -/
structure Scan (Event : Type) where
  first : Option Event := none
  last : Option Event := none
  count : Nat := 0
  stream_digest : List UInt8 := []
  stream_integrity_complete : Bool

def scan_line (scan : Scan Event) (line : List UInt8) : Option (Scan Event) :=
  if strip_bytes line = [] then some scan
  else match D.loads (strip_bytes line) with
    | .decode_error => some { scan with stream_integrity_complete := false }
    | .unicode_error => some { scan with stream_integrity_complete := false }
    | .raises => none
    | .other => some { scan with stream_integrity_complete := false }
    | .object event =>
      if D.run_id event ≠ run_id then some { scan with stream_integrity_complete := false }
      else some { scan with
        first := scan.first.or (some event)
        last := some event
        count := scan.count + 1
        stream_digest := scan.stream_digest ++ D.dumps event ++ [10] }

def scan_run : Option (List UInt8) → Option (Scan Event)
  | none => some { stream_integrity_complete := false }
  | some raw => (byte_lines raw).foldlM (scan_line D run_id) { stream_integrity_complete := ends_whole raw }

/-- What is read of the run's final result: the stream it was sealed for, if that is a
mapping, and the exit code of its outcome. -/
structure Result where
  stream : Option (Coerced × Digest × List Char)
  exit_code : Coerced

structure Summary where
  event_count : Nat
  stream_integrity_complete : Bool
  terminal : Bool
  exit_code : Option Int
  final_snapshot_recorded : Bool

/-- Whether the result is that of the scanned stream. -/
def sealed_for (scan : Scan Event) (result : Result) : Option Bool :=
  match result.stream with
  | none => some false
  | some (event_count, sha256, terminal_event_id) =>
    match event_count with
    | .overflow => none
    | .value count =>
      some (count = some (scan.count : Int) ∧ sha256 = D.sha256 scan.stream_digest ∧ terminal_event_id = scan.last.elim [] D.event_id)

def kept_result (scan : Scan Event) : Option Result → Option (Option Result)
  | none => some none
  | some result => (sealed_for D scan result).map fun same => if same then some result else none

def coerced : Coerced → Option (Option Int)
  | .value code => some code
  | .overflow => none

def runner_exit : List Char := "runner-exit".toList

def runner_exit_seen (scan : Scan Event) : Bool := scan.last.elim false fun event => D.type event = runner_exit

def event_exit_code (scan : Scan Event) : Option (Option Int) :=
  if runner_exit_seen D scan then scan.last.elim (some none) fun event => coerced (D.exit_code event) else some none

def final_exit_code : Option Int → Option Result → Option (Option Int)
  | some code, _ => some (some code)
  | none, none => some none
  | none, some result => coerced result.exit_code

def summarize_run (file : Option (List UInt8)) (result : Option Result) : Option Summary :=
  (scan_run D run_id file).bind fun scan =>
  (kept_result D scan result).bind fun kept =>
  (event_exit_code D scan).bind fun code =>
  (final_exit_code code kept).map fun exit_code =>
    ⟨scan.count, scan.stream_integrity_complete, runner_exit_seen D scan || kept.isSome, exit_code, kept.isSome⟩

/-! ### What a line is -/

/-- The bytes are an object that carries the run's id. -/
def IsEvent (bytes : List UInt8) : Prop := ∃ event, D.loads bytes = .object event ∧ D.run_id event = run_id

/-- The event of a line, if it is one of the run. -/
def event_of (bytes : List UInt8) : Option Event :=
  match D.loads bytes with
  | .object event => if D.run_id event = run_id then some event else none
  | _ => none

/-- The lines that neither reader skips. -/
def nonblank (lines : List (List UInt8)) : List (List UInt8) := lines.filter fun line => strip_bytes line ≠ []

/-- The events of lines that are read in some way, with their blanks or without. -/
def taken (read : List UInt8 → List UInt8) (lines : List (List UInt8)) : List Event :=
  (nonblank lines).filterMap fun line => event_of D run_id (read line)

/-- The decoder raises nothing that the readers do not catch. -/
structure Caught (line : List UInt8) : Prop where
  hot : D.loads line ≠ .unicode_error ∧ D.loads line ≠ .raises
  summary : D.loads (strip_bytes line) ≠ .raises

/-- Lines that are events with their blanks only, and others without them only, make up for each other. -/
structure Cancel (lines : List (List UInt8)) : Prop where
  with_blanks : ∃ line ∈ nonblank lines, IsEvent D run_id line ∧ ¬IsEvent D run_id (strip_bytes line)
  without : ∃ line ∈ nonblank lines, ¬IsEvent D run_id line ∧ IsEvent D run_id (strip_bytes line)
  count : (taken D run_id id lines).length = (taken D run_id strip_bytes lines).length
  digest : events_sha256 D (taken D run_id id lines) = events_sha256 D (taken D run_id strip_bytes lines)

/-- Lines that both readers take alike: each is an event of the run with its blanks or without,
and the last of the events has no infinite exit code. -/
structure ReadAlike (lines : List (List UInt8)) : Prop where
  caught : ∀ line ∈ nonblank lines, Caught D line
  same : (∀ line ∈ nonblank lines, IsEvent D run_id line ↔ IsEvent D run_id (strip_bytes line)) ∨ Cancel D run_id lines
  exit : ∀ event ∈ (taken D run_id strip_bytes lines).getLast?, D.type event = runner_exit → D.exit_code event ≠ .overflow

/-- Both readers return, with the same number of events, the same digest and the same
flag; and the flag says that all of the bytes are lines of events. -/
def Agree (raw : List UInt8) (result : Option Result) : Prop :=
  ∃ stream scan summary, read_hot_stream D run_id (some raw) = some stream ∧ scan_run D run_id (some raw) = some scan ∧
    summarize_run D run_id (some raw) result = some summary ∧ stream.events.length = summary.event_count ∧
    events_sha256 D stream.events = D.sha256 scan.stream_digest ∧
    stream.integrity_complete = summary.stream_integrity_complete ∧
    (stream.integrity_complete = true ↔
      (raw = [] ∨ raw.getLast? = some 10) ∧ ∀ line ∈ byte_lines raw, strip_bytes line ≠ [] → IsEvent D run_id line)

/-- A result without an infinity where `int()` is applied. -/
def Finite (result : Option Result) : Prop :=
  ∀ kept ∈ result, kept.exit_code ≠ .overflow ∧ ∀ sealed_stream ∈ kept.stream, sealed_stream.1 ≠ .overflow

/-! ### The loops -/

variable {D run_id}

theorem isSome_event_of (bytes : List UInt8) : (event_of D run_id bytes).isSome = true ↔ IsEvent D run_id bytes := by
  unfold event_of IsEvent
  split
  · rename_i event hloads
    by_cases hrun : D.run_id event = run_id
    · rw [if_pos hrun]
      exact iff_of_true rfl ⟨event, hloads, hrun⟩
    · rw [if_neg hrun]
      refine iff_of_false Bool.false_ne_true ?_
      rintro ⟨other, hother, hsame⟩
      rw [hloads] at hother
      obtain rfl := Parsed.object.inj hother
      exact hrun hsame
  · rename_i hloads
    exact iff_of_false Bool.false_ne_true fun ⟨event, hevent, _⟩ => hloads event hevent

theorem hot_line_caught {line : List UInt8} (hline : strip_bytes line ≠ []) (h : Caught D line) (stream : RunStream Event) :
    hot_line D run_id stream line = some ⟨stream.events ++ (event_of D run_id line).toList,
      stream.integrity_complete && (event_of D run_id line).isSome⟩ := by
  rw [hot_line, if_neg hline, event_of]
  cases hloads : D.loads line with
  | decode_error => simp
  | unicode_error => exact absurd hloads h.hot.1
  | raises => exact absurd hloads h.hot.2
  | other => simp
  | object event =>
    by_cases hrun : D.run_id event = run_id
    · simp [hrun]
    · simp [hrun]

theorem scan_line_caught {line : List UInt8} (hline : strip_bytes line ≠ []) (h : D.loads (strip_bytes line) ≠ .raises) (scan : Scan Event) :
    scan_line D run_id scan line = some ⟨scan.first.or (event_of D run_id (strip_bytes line)),
      (event_of D run_id (strip_bytes line)).or scan.last, scan.count + (event_of D run_id (strip_bytes line)).toList.length,
      scan.stream_digest ++ hashed D (event_of D run_id (strip_bytes line)).toList,
      scan.stream_integrity_complete && (event_of D run_id (strip_bytes line)).isSome⟩ := by
  rw [scan_line, if_neg hline, event_of]
  cases hloads : D.loads (strip_bytes line) with
  | decode_error => simp [hashed]
  | unicode_error => simp [hashed]
  | raises => exact absurd hloads h
  | other => simp [hashed]
  | object event =>
    by_cases hrun : D.run_id event = run_id
    · simp [hrun, hashed]
    · simp [hrun, hashed]

theorem nonblank_cons (line : List UInt8) (lines : List (List UInt8)) :
    nonblank (line :: lines) = if strip_bytes line = [] then nonblank lines else line :: nonblank lines := by
  rw [nonblank, List.filter_cons]
  by_cases hline : strip_bytes line = []
  · rw [if_neg (by simp [hline]), if_pos hline]
    rfl
  · rw [if_pos (by simp [hline]), if_neg hline]
    rfl

theorem taken_cons {read : List UInt8 → List UInt8} {line : List UInt8} (hline : strip_bytes line ≠ []) (lines : List (List UInt8)) :
    taken D run_id read (line :: lines) = (event_of D run_id (read line)).toList ++ taken D run_id read lines := by
  rw [taken, nonblank_cons, if_neg hline, List.filterMap_cons]
  cases event_of D run_id (read line) <;> rfl

theorem taken_blank {read : List UInt8 → List UInt8} {line : List UInt8} (hline : strip_bytes line = []) (lines : List (List UInt8)) :
    taken D run_id read (line :: lines) = taken D run_id read lines := by
  rw [taken, nonblank_cons, if_pos hline, taken]

/-- **The first reader** keeps the events of the lines as they are. -/
theorem hot_lines {lines : List (List UInt8)} (h : ∀ line ∈ nonblank lines, Caught D line) (stream : RunStream Event) :
    lines.foldlM (hot_line D run_id) stream = some ⟨stream.events ++ taken D run_id id lines,
      stream.integrity_complete && (nonblank lines).all fun line => (event_of D run_id line).isSome⟩ := by
  induction lines generalizing stream with
  | nil => simp [taken, nonblank]
  | cons line lines ih =>
    rw [nonblank_cons] at h ⊢
    by_cases hline : strip_bytes line = []
    · rw [if_pos hline] at h ⊢
      rw [List.foldlM_cons, hot_line, if_pos hline, taken_blank hline]
      exact ih h stream
    · rw [if_neg hline] at h ⊢
      rw [List.foldlM_cons, hot_line_caught hline (h line List.mem_cons_self), taken_cons hline, List.all_cons, ← Bool.and_assoc,
        ← List.append_assoc]
      exact ih (fun other hother => h other (List.mem_cons_of_mem line hother)) _

/-- **The second reader** counts and hashes the events of the lines without their blanks. -/
theorem scan_lines {lines : List (List UInt8)} (h : ∀ line ∈ nonblank lines, D.loads (strip_bytes line) ≠ .raises) (scan : Scan Event) :
    lines.foldlM (scan_line D run_id) scan = some ⟨scan.first.or (taken D run_id strip_bytes lines).head?,
      (taken D run_id strip_bytes lines).getLast?.or scan.last, scan.count + (taken D run_id strip_bytes lines).length,
      scan.stream_digest ++ hashed D (taken D run_id strip_bytes lines),
      scan.stream_integrity_complete && (nonblank lines).all fun line => (event_of D run_id (strip_bytes line)).isSome⟩ := by
  induction lines generalizing scan with
  | nil => simp [taken, nonblank, hashed]
  | cons line lines ih =>
    rw [nonblank_cons] at h ⊢
    by_cases hline : strip_bytes line = []
    · rw [if_pos hline] at h ⊢
      rw [List.foldlM_cons, scan_line, if_pos hline, taken_blank hline]
      exact ih h scan
    · rw [if_neg hline] at h ⊢
      rw [List.foldlM_cons, scan_line_caught hline (h line List.mem_cons_self), taken_cons hline, List.all_cons, ← Bool.and_assoc]
      refine (ih (fun other hother => h other (List.mem_cons_of_mem line hother)) _).trans ?_
      cases event_of D run_id (strip_bytes line) <;> simp [hashed, Nat.add_assoc, Nat.add_comm, List.getLast?_cons]

/-- A reader that returns caught what its lines raise. -/
theorem caught_of_lines {lines : List (List UInt8)} {stream stream' : RunStream Event} {scan scan' : Scan Event}
    (hhot : lines.foldlM (hot_line D run_id) stream = some stream') (hscan : lines.foldlM (scan_line D run_id) scan = some scan') :
    ∀ line ∈ nonblank lines, Caught D line := by
  induction lines generalizing stream scan with
  | nil => simp [nonblank]
  | cons line lines ih =>
    rw [List.foldlM_cons] at hhot hscan
    obtain ⟨now, hhere, hhot⟩ := Option.bind_eq_some_iff.mp hhot
    obtain ⟨here, hthere, hscan⟩ := Option.bind_eq_some_iff.mp hscan
    rw [nonblank_cons]
    by_cases hline : strip_bytes line = []
    · rw [if_pos hline]
      exact ih hhot hscan
    · rw [if_neg hline]
      refine List.forall_mem_cons.mpr ⟨⟨⟨fun hloads => ?_, fun hloads => ?_⟩, fun hloads => ?_⟩, ih hhot hscan⟩
      · rw [hot_line, if_neg hline, hloads] at hhere
        cases hhere
      · rw [hot_line, if_neg hline, hloads] at hhere
        cases hhere
      · rw [scan_line, if_neg hline, hloads] at hthere
        cases hthere

/-! ### The summary -/

theorem coerced_eq {code : Coerced} (h : code ≠ .overflow) : ∃ value, coerced code = some value := by
  cases code with
  | value value => exact ⟨value, rfl⟩
  | overflow => exact absurd rfl h

theorem kept_result_finite (scan : Scan Event) {result : Option Result} (h : Finite result) :
    ∃ kept, kept_result D scan result = some kept ∧ ∀ found ∈ kept, found.exit_code ≠ .overflow := by
  cases result with
  | none => exact ⟨none, rfl, nofun⟩
  | some result =>
    obtain ⟨hexit, hstream⟩ := h result rfl
    have hsealed : ∃ same, sealed_for D scan result = some same := by
      rw [sealed_for]
      cases hstream' : result.stream with
      | none => exact ⟨false, rfl⟩
      | some sealed_stream =>
        obtain ⟨event_count, sha256, terminal_event_id⟩ := sealed_stream
        have hcount := hstream _ hstream'
        cases event_count with
        | value count => exact ⟨_, rfl⟩
        | overflow => exact absurd rfl hcount
    obtain ⟨same, hsame⟩ := hsealed
    refine ⟨if same then some result else none, by rw [kept_result, hsame]; rfl, fun found hfound => ?_⟩
    cases same with
    | false => cases hfound
    | true => exact Option.some.inj hfound ▸ hexit

theorem final_exit_code_finite (code : Option Int) {kept : Option Result} (h : ∀ found ∈ kept, found.exit_code ≠ .overflow) :
    ∃ exit_code, final_exit_code code kept = some exit_code := by
  cases code with
  | some code => exact ⟨some code, rfl⟩
  | none =>
    cases kept with
    | none => exact ⟨none, rfl⟩
    | some found => exact coerced_eq (h found rfl)

theorem event_exit_code_isSome (scan : Scan Event) : (event_exit_code D scan).isSome ↔
    ∀ event ∈ scan.last, D.type event = runner_exit → D.exit_code event ≠ .overflow := by
  rw [event_exit_code, runner_exit_seen]
  cases hlast : scan.last with
  | none => exact ⟨fun _ => nofun, fun _ => rfl⟩
  | some event =>
    by_cases htype : D.type event = runner_exit
    · have hseen : (some event).elim false (fun event => decide (D.type event = runner_exit)) = true := decide_eq_true htype
      rw [if_pos hseen, Option.elim_some]
      cases hexit : D.exit_code event with
      | value code =>
        refine ⟨fun _ other hother _ => ?_, fun _ => rfl⟩
        rw [← Option.some.inj hother, hexit]
        exact nofun
      | overflow => exact ⟨fun hfalse => absurd hfalse Bool.false_ne_true, fun hall => absurd hexit (hall event rfl htype)⟩
    · have hseen : ¬(some event).elim false (fun event => decide (D.type event = runner_exit)) = true := fun h => htype (of_decide_eq_true h)
      rw [if_neg hseen]
      exact ⟨fun _ other hother htype' => absurd (Option.some.inj hother ▸ htype') htype, fun _ => rfl⟩

/-- With a finite result, only the exit code of the last event can keep a summary back. -/
theorem summarize_run_eq {raw : List UInt8} {scan : Scan Event} (hscan : scan_run D run_id (some raw) = some scan)
    {result : Option Result} (hresult : Finite result) :
    (∀ summary, summarize_run D run_id (some raw) result = some summary →
        summary.event_count = scan.count ∧ summary.stream_integrity_complete = scan.stream_integrity_complete) ∧
      ((summarize_run D run_id (some raw) result).isSome ↔
        ∀ event ∈ scan.last, D.type event = runner_exit → D.exit_code event ≠ .overflow) := by
  obtain ⟨kept, hkept, hfinite⟩ := kept_result_finite scan hresult
  rw [← event_exit_code_isSome, summarize_run, hscan, Option.bind_some, hkept, Option.bind_some]
  cases event_exit_code D scan with
  | none => exact ⟨nofun, Iff.rfl⟩
  | some code =>
    obtain ⟨exit_code, hfinal⟩ := final_exit_code_finite code hfinite
    rw [Option.bind_some, hfinal]
    refine ⟨fun summary hsummary => ?_, fun _ => rfl, fun _ => rfl⟩
    obtain rfl := Option.some.inj hsummary
    exact ⟨rfl, rfl⟩

/-! ### Agreement -/

theorem ends_whole_iff (raw : List UInt8) : ends_whole raw = true ↔ raw = [] ∨ raw.getLast? = some 10 := by
  simp [ends_whole]

theorem forall_nonblank {lines : List (List UInt8)} {p : List UInt8 → Prop} :
    (∀ line ∈ nonblank lines, p line) ↔ ∀ line ∈ lines, strip_bytes line ≠ [] → p line := by
  simp [nonblank]

theorem all_events {lines : List (List UInt8)} {read : List UInt8 → List UInt8} :
    ((nonblank lines).all fun line => (event_of D run_id (read line)).isSome) = true ↔ ∀ line ∈ nonblank lines, IsEvent D run_id (read line) := by
  simp only [List.all_eq_true, isSome_event_of]

/-- Lines that are read alike give the same events. -/
theorem taken_eq (hsame : ∀ line event event', D.loads line = .object event → D.loads (strip_bytes line) = .object event' → event = event')
    {lines : List (List UInt8)} (h : ∀ line ∈ nonblank lines, IsEvent D run_id line ↔ IsEvent D run_id (strip_bytes line)) :
    taken D run_id id lines = taken D run_id strip_bytes lines := by
  refine List.filterMap_congr fun line hline => ?_
  show event_of D run_id line = event_of D run_id (strip_bytes line)
  by_cases hevent : IsEvent D run_id line
  · obtain ⟨event', hloads', hrun'⟩ := (h line hline).mp hevent
    obtain ⟨event, hloads, hrun⟩ := hevent
    obtain rfl := hsame line event event' hloads hloads'
    rw [event_of, event_of, hloads, hloads']
  · have hother := (h line hline).not.mp hevent
    rw [← isSome_event_of, Option.not_isSome_iff_eq_none] at hevent hother
    rw [hevent, hother]

/-- Where one of two choices implies the other and both take as many, they take the same. -/
theorem isSome_of_length {α β : Type} {f g : α → Option β} {l : List α} (hone : ∀ x ∈ l, (f x).isSome = true → (g x).isSome = true)
    (hcount : (l.filterMap f).length = (l.filterMap g).length) : ∀ x ∈ l, (g x).isSome = true → (f x).isSome = true := by
  induction l with
  | nil => exact fun x hx => absurd hx List.not_mem_nil
  | cons a l ih =>
    obtain ⟨hhead, htail⟩ := List.forall_mem_cons.mp hone
    have hle : (l.filterMap f).length ≤ (l.filterMap g).length := by
      rw [List.length_filterMap_eq_countP, List.length_filterMap_eq_countP]
      exact List.countP_mono_left htail
    rw [List.filterMap_cons, List.filterMap_cons] at hcount
    cases hf : f a with
    | none =>
      cases hg : g a with
      | none =>
        rw [hf, hg] at hcount
        exact List.forall_mem_cons.mpr ⟨fun h => absurd h (by rw [hg]; exact Bool.false_ne_true), ih htail hcount⟩
      | some y =>
        simp only [hf, hg, List.length_cons] at hcount
        omega
    | some x =>
      obtain ⟨y, hg⟩ := Option.isSome_iff_exists.mp (hhead (by rw [hf]; rfl))
      rw [hf, hg, List.length_cons, List.length_cons, Nat.add_right_cancel_iff] at hcount
      exact List.forall_mem_cons.mpr ⟨fun _ => by rw [hf]; rfl, ih htail hcount⟩

/-- Lines that are not read alike, and yet give as many events, are of both sorts. -/
theorem cancel_of_count {lines : List (List UInt8)} (hcount : (taken D run_id id lines).length = (taken D run_id strip_bytes lines).length)
    (hdigest : events_sha256 D (taken D run_id id lines) = events_sha256 D (taken D run_id strip_bytes lines))
    (h : ¬∀ line ∈ nonblank lines, IsEvent D run_id line ↔ IsEvent D run_id (strip_bytes line)) : Cancel D run_id lines := by
  refine ⟨?_, ?_, hcount, hdigest⟩
  · by_contra hnone
    have hone : ∀ line ∈ nonblank lines, IsEvent D run_id line → IsEvent D run_id (strip_bytes line) := fun line hline hevent => by
      by_contra hother
      exact hnone ⟨line, hline, hevent, hother⟩
    have hback := isSome_of_length (fun line hline => by simpa only [isSome_event_of, id] using hone line hline) hcount
    exact h fun line hline => ⟨hone line hline, by simpa only [isSome_event_of, id] using hback line hline⟩
  · by_contra hnone
    have hone : ∀ line ∈ nonblank lines, IsEvent D run_id (strip_bytes line) → IsEvent D run_id line := fun line hline hevent => by
      by_contra hother
      exact hnone ⟨line, hline, hother, hevent⟩
    have hback := isSome_of_length (fun line hline => by simpa only [isSome_event_of, id] using hone line hline) hcount.symm
    exact h fun line hline => ⟨by simpa only [isSome_event_of, id] using hback line hline, hone line hline⟩

/-- **The two readers return and agree** on the streams whose lines are taken alike, and on no others. -/
theorem readers_agree_iff (hsame : ∀ line event event', D.loads line = .object event → D.loads (strip_bytes line) = .object event' → event = event')
    {result : Option Result} (hresult : Finite result) (raw : List UInt8) :
    Agree D run_id raw result ↔ ReadAlike D run_id (byte_lines raw) := by
  constructor
  · rintro ⟨stream, scan, summary, hhot, hscan, hsummary, hcount, hdigest, -, -⟩
    have hcaught := caught_of_lines hhot hscan
    obtain ⟨hfields, hsome⟩ := summarize_run_eq hscan hresult
    have hexit := hsome.mp (by rw [hsummary]; rfl)
    rw [(hfields summary hsummary).1] at hcount
    obtain rfl := Option.some.inj ((hot_lines hcaught _).symm.trans hhot)
    obtain rfl := Option.some.inj ((scan_lines (fun line hline => (hcaught line hline).summary) _).symm.trans hscan)
    simp only [List.nil_append, Nat.zero_add, Option.or_none] at hcount hdigest hexit
    refine ⟨hcaught, ?_, hexit⟩
    by_cases hall : ∀ line ∈ nonblank (byte_lines raw), IsEvent D run_id line ↔ IsEvent D run_id (strip_bytes line)
    · exact Or.inl hall
    · exact Or.inr (cancel_of_count hcount hdigest hall)
  · rintro ⟨hcaught, halike, hexit⟩
    have hhot := @hot_lines _ D run_id _ hcaught ⟨[], ends_whole raw⟩
    have hscan := @scan_lines _ D run_id _ (fun line hline => (hcaught line hline).summary) { stream_integrity_complete := ends_whole raw }
    obtain ⟨hfields, hsome⟩ := @summarize_run_eq _ D run_id _ _ hscan result hresult
    rw [Option.or_none] at hsome
    obtain ⟨summary, hsummary⟩ := Option.isSome_iff_exists.mp (hsome.mpr hexit)
    obtain ⟨hcount, hintegrity⟩ := hfields summary hsummary
    have htaken : (taken D run_id id (byte_lines raw)).length = (taken D run_id strip_bytes (byte_lines raw)).length ∧
        events_sha256 D (taken D run_id id (byte_lines raw)) = events_sha256 D (taken D run_id strip_bytes (byte_lines raw)) := by
      rcases halike with hall | hcancel
      · rw [taken_eq hsame hall]
        exact ⟨rfl, rfl⟩
      · exact ⟨hcancel.count, hcancel.digest⟩
    have hflag : (∀ line ∈ nonblank (byte_lines raw), IsEvent D run_id line) ↔
        ∀ line ∈ nonblank (byte_lines raw), IsEvent D run_id (strip_bytes line) := by
      rcases halike with hall | hcancel
      · exact forall₂_congr hall
      · obtain ⟨line, hline, -, hother⟩ := hcancel.with_blanks
        obtain ⟨line', hline', hother', -⟩ := hcancel.without
        exact iff_of_false (fun hevents => hother' (hevents line' hline')) fun hevents => hother (hevents line hline)
    have hhotAll : ((nonblank (byte_lines raw)).all fun line => (event_of D run_id line).isSome) = true ↔
        ∀ line ∈ nonblank (byte_lines raw), IsEvent D run_id line := by
      simp only [List.all_eq_true, isSome_event_of]
    refine ⟨_, _, summary, hhot, hscan, hsummary, ?_, ?_, ?_, ?_⟩
    · rw [hcount, List.nil_append, Nat.zero_add]
      exact htaken.1
    · rw [List.nil_append, List.nil_append]
      exact htaken.2
    · rw [hintegrity, Bool.eq_iff_iff, Bool.and_eq_true, Bool.and_eq_true]
      exact and_congr_right fun _ => hhotAll.trans (hflag.trans all_events.symm)
    · rw [Bool.and_eq_true, ends_whole_iff, ← forall_nonblank]
      exact and_congr_right fun _ => hhotAll

/-- A decoder that knows one event, and bytes that are no UTF-8. -/
def one_event : Codec Unit where
  loads bytes := if bytes = [123, 125] then .object () else if bytes.any (0x80 ≤ ·) then .unicode_error else .decode_error
  run_id _ := []
  type _ := []
  event_id _ := []
  exit_code _ := .value none
  dumps _ := [123, 125]
  sha256 _ := []

/-- Two events with a blank line between them. -/
theorem one_event_agrees : Agree one_event [] [123, 125, 10, 32, 10, 123, 125, 10] none := by
  have hlines : nonblank (byte_lines [123, 125, 10, 32, 10, 123, 125, 10]) = [[123, 125], [123, 125]] := by decide
  have hevent : IsEvent one_event [] [123, 125] := ⟨(), rfl, rfl⟩
  refine (readers_agree_iff (fun _ _ _ _ _ => rfl) (fun _ h => by cases h) [123, 125, 10, 32, 10, 123, 125, 10]).mpr ⟨?_, Or.inl ?_, ?_⟩
  · rw [hlines]
    intro line hline
    obtain rfl : line = [123, 125] := by simpa using hline
    refine ⟨⟨?_, ?_⟩, ?_⟩ <;> intro hloads <;> cases hloads
  · rw [hlines]
    intro line hline
    obtain rfl : line = [123, 125] := by simpa using hline
    exact iff_of_true hevent hevent
  · intro _ _ htype
    cases htype

/-- Bytes that are no UTF-8 are one more malformed line to the summary, and make the other
reader raise. -/
theorem unicode_error_raised : ¬∀ raw result, Agree one_event [] raw result := by
  intro h
  obtain ⟨stream, -, -, hhot, -⟩ := h [255, 10] none
  cases hhot

end LeanFlow.Runs
