import LeanFlow.General.Utf8
import LeanFlow.Source.Declarations

/-! Following a run: polls of its event stream, each from the cursor that the one before it
returned.

The stream is a text file that only grows, by whole lines or by parts of one. A poll reads
all of it, looks its cursor up among all events, and returns the last of the matching ones
behind it. -/
namespace LeanFlow.Runs
open General.Utf8 Source

/-- What `json.loads` makes of a line. A number with too many digits, or a nesting too deep,
is no `JSONDecodeError`. -/
inductive Loaded (Event : Type) where
  | decode_error
  | raises
  | other
  | object (event : Event)

/-- The JSON decoder, and an event's identifier and type, as strings. -/
structure Decoder (Event : Type) where
  loads : Text → Loaded Event
  event_id : Event → Text
  type : Event → Text

variable {Event : Type} (C : CharClass) (D : Decoder Event)

/-! ### `_read_jsonl` -/

/-- A text file's line ends. -/
def universal_newlines : Text → Text
  | [] => []
  | [c] => [if c = '\r' then '\n' else c]
  | c :: d :: rest =>
    if c = '\r' ∧ d = '\n' then '\n' :: universal_newlines rest
    else (if c = '\r' then '\n' else c) :: universal_newlines (d :: rest)

/-- The record of a line, if any; `none` where reading it raises. -/
def read_line (line : Text) : Option (List Event) :=
  if strip C line = [] then some []
  else match D.loads (strip C line) with
    | .decode_error => some []
    | .raises => none
    | .other => some []
    | .object event => some [event]

def read_lines : List Text → Option (List Event)
  | [] => some []
  | line :: lines => (read_line C D line).bind fun records => (read_lines lines).map (records ++ ·)

/-- `records[-limit:]` -/
def last (limit : Nat) (events : List Event) : List Event := events.drop (events.length - limit)

def read_jsonl (file : Option Bytes) (limit : Nat) : Option (List Event) :=
  match file with
  | none => some []
  | some bytes =>
    (read_lines C D ((universal_newlines (decode bytes)).splitOn '\n')).map fun records =>
      if 0 < limit then last limit records else records

/-! ### `_handle_events` -/

structure Arguments where
  limit : Int
  since : Text
  event_types : Text

def Arguments.limit_events (args : Arguments) : Nat := (max 1 (if args.limit = 0 then 200 else args.limit)).toNat

def type_filter (event_types : Text) : List Text := ((event_types.splitOn ',').map (strip C)).filter (· ≠ [])

/-- An event that the filter keeps. -/
def kept (event_types : Text) (event : Event) : Bool :=
  (type_filter C event_types).isEmpty || (type_filter C event_types).contains (D.type event)

/-- The events behind the first that carries the cursor, or all of them. -/
def unseen (since : Text) (events : List Event) : List Event :=
  if since = [] then events
  else match events.findIdx? fun event => D.event_id event = since with
    | some index => events.drop (index + 1)
    | none => events

/-- The answer of a poll. One about no stream has no cursor. -/
structure Answer (Event : Type) where
  cursor : Option Text
  events : List Event

def handle_events (file : Option Bytes) (args : Arguments) : Option (Answer Event) :=
  match file with
  | none => some ⟨none, []⟩
  | some bytes => (read_jsonl C D (some bytes) 0).map fun events =>
    let since := strip C args.since
    let found := last args.limit_events ((unseen D since events).filter (kept C D args.event_types))
    ⟨some (found.getLast?.elim since D.event_id), found⟩

/-! ### Following -/

inductive Action where
  | append (bytes : Bytes)
  | poll

def Action.is_poll : Action → Bool
  | .append _ => false
  | .poll => true

/-- The stream, the cursor to pass on, and the polls that were answered: what the stream
held, and the events returned. -/
structure Follower (Event : Type) where
  file : Option Bytes := none
  since : Text := []
  answers : List (Bytes × List Event) := []

variable (limit : Int) (event_types : Text)

def act (s : Follower Event) : Action → Follower Event
  | .append bytes => { s with file := some (s.file.getD [] ++ bytes) }
  | .poll =>
    match handle_events C D s.file ⟨limit, s.since, event_types⟩ with
    | some answer => { s with since := answer.cursor.getD [], answers := s.answers ++ [(s.file.getD [], answer.events)] }
    | none => s

def follow (actions : List Action) : Follower Event := actions.foldl (act C D limit event_types) {}

end LeanFlow.Runs
