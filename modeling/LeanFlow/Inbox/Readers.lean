import LeanFlow.General.Runs
import Mathlib.Algebra.Ring.Nat
import Mathlib.Data.List.Basic
import Mathlib.Data.List.Infix

/-! A run's inbox and its two readers.

Writers append bytes, and may stop within a line. `GuidanceInbox.poll` reads lines of
bytes up to a limit and saves its position before it returns; `RunStore.messages` reads
lines of text and leaves the saving to its controller. Either may be restarted at the
position that was saved last. -/
namespace LeanFlow.Inbox
open General

abbrev Bytes := List UInt8

/-- A string by its code points, which may be lone surrogates. -/
abbrev Str := List Nat

/-! ### Lines -/

/-- The complete lines, with their newlines. -/
def complete : Bytes → List Bytes
  | [] => []
  | b :: rest =>
    if b = 10 then [b] :: complete rest
    else match complete rest with
      | [] => []
      | line :: lines => (b :: line) :: lines

/-- The lines of a text file: a carriage return, alone or before a newline, ends a line too. -/
def universal : Bytes → List Bytes
  | [] => []
  | [b] => if b = 10 ∨ b = 13 then [[b]] else []
  | b :: c :: rest =>
    if b = 13 ∧ c = 10 then [b, c] :: universal rest
    else if b = 10 ∨ b = 13 then [b] :: universal (c :: rest)
    else match universal (c :: rest) with
      | [] => []
      | line :: lines => (b :: line) :: lines

/-- What a line of a text file reads as. -/
def translate (line : Bytes) : Bytes := line.takeWhile (fun b => b ≠ 10 ∧ b ≠ 13) ++ [10]

/-- An incremental UTF-8 decoder: how many bytes are pending, and the range of the next one. -/
structure Decoder where
  pending : Nat
  low : UInt8
  high : UInt8

def Decoder.start : Decoder := ⟨0, 0x80, 0xBF⟩

def Decoder.step (d : Decoder) (b : UInt8) : Option Decoder :=
  match d.pending with
  | n + 1 => if d.low ≤ b ∧ b ≤ d.high then some ⟨n, 0x80, 0xBF⟩ else none
  | 0 =>
    if b < 0x80 then some .start
    else if 0xC2 ≤ b ∧ b ≤ 0xDF then some ⟨1, 0x80, 0xBF⟩
    else if b = 0xE0 then some ⟨2, 0xA0, 0xBF⟩
    else if b = 0xED then some ⟨2, 0x80, 0x9F⟩
    else if 0xE1 ≤ b ∧ b ≤ 0xEF then some ⟨2, 0x80, 0xBF⟩
    else if b = 0xF0 then some ⟨3, 0x90, 0xBF⟩
    else if b = 0xF4 then some ⟨3, 0x80, 0x8F⟩
    else if 0xF1 ≤ b ∧ b ≤ 0xF3 then some ⟨3, 0x80, 0xBF⟩
    else none

def valid_utf8 (bytes : Bytes) : Bool := (bytes.foldlM Decoder.step .start).any (·.pending = 0)

/-! ### Messages -/

/-- What is read of an object: its recipient (the orchestrator where none is named), its
identifier and its text, as strings. -/
structure Message where
  recipient : Str
  id : Str
  message : Str
deriving DecidableEq

/-- What `json.loads` makes of a line. Nesting beyond the recursion limit is no `ValueError`. -/
inductive Loaded where
  | value_error
  | recursion_error
  | other
  | object (message : Message)
deriving DecidableEq

/-- A reader of guidance, its job's context, and the JSON decoder, of bytes and of text. -/
structure Reader where
  recipient : Str
  orchestrator : Bool
  inbox_offset : Option Nat
  loads : Bytes → Loaded
  loads_text : Bytes → Loaded

variable (reader : Reader)

/-! ### `GuidanceInbox` -/

structure Item where
  id : Str
  message : Str
deriving DecidableEq

/-- `guidance-offset.json`; an old one has a cursor only. -/
structure Position where
  offset : Nat
  messages : Option (List Item × Nat)

structure GuidanceInbox where
  offset : Nat := 0
  history : List Item := []
  omitted : Nat := 0
  plan_offset : Nat := 0

def retained_size (history : List Item) : Nat := (history.map fun item => item.message.length + item.id.length + 32).sum

def drop_oldest : List Item → Nat → List Item × Nat
  | [], omitted => ([], omitted)
  | item :: history, omitted =>
    if 15360 < retained_size (item :: history) then drop_oldest history (omitted + 1) else (item :: history, omitted)

def remember (g : GuidanceInbox) (item : Item) : GuidanceInbox :=
  let (history, omitted) := drop_oldest (g.history ++ [⟨item.id.take 128, item.message.take 8192⟩]) g.omitted
  { g with history := history, omitted := omitted }

def surrogate (code : Nat) : Bool := 0xD800 ≤ code ∧ code ≤ 0xDFFF

def encodable (item : Item) : Bool := !item.id.any surrogate && !item.message.any surrogate

/-- `_save`: the file is UTF-8. -/
def save (saved : Bool) (g : GuidanceInbox) : Option Position :=
  if saved && g.history.all encodable then some ⟨g.offset, some (g.history, g.omitted)⟩ else none

/-- `__init__`, up to its save. -/
def GuidanceInbox.init (position : Option Position) (file : Option Bytes) : GuidanceInbox :=
  let g : GuidanceInbox := { plan_offset := if reader.orchestrator then reader.inbox_offset.getD (file.elim 0 List.length) else 0 }
  match position.bind fun p => p.messages.map (p.offset, ·) with
  | none => g
  | some (offset, history, omitted) => history.foldl remember { g with offset := offset, omitted := omitted }

def orchestrator : Str := "orchestrator".toList.map Char.toNat

/-- The message is for this reader, its line ending at `stop`. -/
def addressed (plan_offset stop : Nat) (message : Message) : Bool :=
  message.recipient = reader.recipient ||
    (message.recipient = orchestrator && reader.orchestrator && plan_offset < stop)

/-- The loop of `poll`. `readline(65537)` returns the next complete line, or a part of it
that has no newline. The result is `none` where `json.loads` ends the poll. -/
def poll_lines (g : GuidanceInbox) (result : List Message) : List Bytes → Option (List Message) × GuidanceInbox
  | [] => (some result, g)
  | line :: lines =>
    if 65537 < line.length then (some result, g)
    else
      let g := { g with offset := g.offset + line.length }
      match reader.loads line with
      | .recursion_error => (none, g)
      | .value_error | .other => poll_lines g result lines
      | .object message =>
        if addressed reader g.plan_offset g.offset message then
          poll_lines (remember g ⟨message.id, message.message⟩) (result ++ [message]) lines
        else poll_lines g result lines

/-! ### `RunStore` -/

/-- The offset of a controller's store, and the messages that its state has taken up. -/
structure Store where
  inbox_offset : Nat
  taken : List Message
deriving DecidableEq

/-- The loop of `messages`. -/
def message_lines (offset : Nat) (result : List Message) : List Bytes → Option (List Message) × Nat
  | [] => (some result, offset)
  | line :: lines =>
    match reader.loads_text (translate line) with
    | .recursion_error => (none, offset + line.length)
    | .value_error | .other => message_lines (offset + line.length) result lines
    | .object message => message_lines (offset + line.length) (result ++ [message]) lines

/-- Text that does not decode raises, after some of the lines before it. -/
def messages (decoded : Nat) (offset : Nat) (rest : Bytes) : Option (List Message) × Nat :=
  if valid_utf8 rest then message_lines reader offset [] (universal rest)
  else (none, offset + ((universal rest).take decoded).flatten.length)

/-! ### Runs -/

structure World where
  file : Option Bytes
  position : Option Position
  inbox : Option GuidanceInbox
  /-- What the polls have returned. -/
  returned : List Message
  store : Option Store
  saved : Store

inductive Event where
  | append (bytes : Bytes)
  | poll (saved : Bool)
  | restart_inbox (saved : Bool)
  | messages (decoded : Nat)
  | save_store
  | restart_store

def poll (saved : Bool) (g : GuidanceInbox) (file : Bytes) (w : World) : World :=
  match poll_lines reader g [] (complete (file.drop g.offset)) with
  | (none, g) => { w with inbox := some g }
  | (some result, g) =>
    match save saved g with
    | none => { w with inbox := some g }
    | some position => { w with inbox := some g, position := some position, returned := w.returned ++ result }

def restart_inbox (saved : Bool) (w : World) : World :=
  let g := GuidanceInbox.init reader w.position w.file
  match save saved g with
  | none => { w with inbox := none }
  | some position => { w with inbox := some g, position := some position }

def step (w : World) : Event → Option World
  | .append bytes => some { w with file := some (w.file.getD [] ++ bytes) }
  | .poll saved =>
    match w.inbox, w.file with
    | none, _ => none
    | some _, none => some w
    | some g, some file => some (poll reader saved g file w)
  | .restart_inbox saved => some (restart_inbox reader saved w)
  | .messages decoded =>
    match w.store, w.file with
    | none, _ => none
    | some _, none => some w
    | some s, some file =>
      let (result, offset) := messages reader decoded s.inbox_offset (file.drop s.inbox_offset)
      some { w with store := some ⟨offset, s.taken ++ result.getD []⟩ }
  | .save_store => w.store.map fun s => { w with saved := s }
  | .restart_store => some { w with store := some w.saved }

def run (w : World) (events : List Event) : Option World := events.foldlM (step reader) w

def World.initial : World := ⟨none, none, none, [], none, ⟨0, []⟩⟩

/-- Lines that the guidance reader can take, the first one starting at `start`: each within
its limit, no deeper than the decoder goes, and, where it is for this reader, a text that
can be saved. -/
def Fit (plan_offset start : Nat) : List Bytes → Prop
  | [] => True
  | line :: lines =>
    (line.length ≤ 65537 ∧ reader.loads line ≠ .recursion_error ∧
      ∀ message, reader.loads line = .object message → addressed reader plan_offset (start + line.length) message = true →
        encodable ⟨message.id.take 128, message.message.take 8192⟩ = true) ∧ Fit plan_offset (start + line.length) lines

/-- The condition: what is read next can be read, and saved. -/
def Proper (w : World) : Event → Prop
  | .poll saved => saved = true ∧ ∀ g file, w.inbox = some g → w.file = some file →
      Fit reader g.plan_offset g.offset (complete (file.drop g.offset))
  | .restart_inbox _ => reader.orchestrator = true → reader.inbox_offset ≠ none
  | .messages _ => ∀ s file, w.store = some s → w.file = some file →
      valid_utf8 (file.drop s.inbox_offset) = true ∧ (13 : UInt8) ∉ file.drop s.inbox_offset ∧
        ∀ line ∈ complete (file.drop s.inbox_offset), reader.loads_text line ≠ .recursion_error
  | _ => True

end LeanFlow.Inbox
