import LeanFlow.General.Utf8

/-! A file read in pages of text, from byte offset to byte offset.

A page is decoded from a window of bytes that is wide enough for its characters, and says
at which byte the next one begins. Where what it takes decodes without a replacement, the
bytes it took are the text encoded again; where not, it walks over the bytes, by characters
and by single bytes that start none, and decodes what it walked over. -/
namespace LeanFlow.Paging
open General.Utf8

/-- How many bytes a lead byte calls for in `_utf8_window`. -/
def sequence_size (lead : UInt8) : Nat :=
  if 0xC2 ≤ lead ∧ lead ≤ 0xDF then 2
  else if 0xE0 ≤ lead ∧ lead ≤ 0xEF then 3
  else if 0xF0 ≤ lead ∧ lead ≤ 0xF4 then 4
  else 1

/-- The loop of `_utf8_window`. -/
def walk (data : Bytes) (limit_chars index chars : Nat) : Nat :=
  if h : index < data.length ∧ chars < limit_chars then
    have := h.1
    let size := sequence_size data[index]
    let chunk := (data.drop index).take size
    if 1 < size then
      match decode_strict chunk with
      | .ok _ => walk data limit_chars (index + size) (chars + 1)
      | .error reason =>
        if chunk.length < size ∧ reason = .unexpected_end_of_data then data.length
        else walk data limit_chars (index + 1) (chars + 1)
    else walk data limit_chars (index + 1) (chars + 1)
  else index
termination_by limit_chars - chars
decreasing_by all_goals omega

/-- `_utf8_window`: the text, and how many bytes of the data it covers. -/
def utf8_window (data : Bytes) (limit_chars : Nat) : List Char × Nat :=
  if replacement ∉ (decode data).take limit_chars then
    ((decode data).take limit_chars, (encode ((decode data).take limit_chars)).length)
  else (decode (data.take (walk data limit_chars 0 0)), walk data limit_chars 0 0)

def page_limit (limit : Option Int) : Nat := (min 16000 (max 1 (limit.getD 8000))).toNat

structure Page where
  content : List Char
  next_offset : Nat

/-- `read_file`, of a file that is there. -/
def read_file (file : Bytes) (offset limit : Option Int) : Page :=
  let start := (max 0 (offset.getD 0)).toNat
  let window := (file.drop start).take (page_limit limit * 4 + 8)
  ⟨(utf8_window window (page_limit limit)).1, start + (utf8_window window (page_limit limit)).2⟩

variable (file : Bytes) (limit : Option Int)

/-- Where the calls begin that start at the file's and pass on `next_offset`. -/
def offset : Nat → Nat
  | 0 => 0
  | k + 1 => (read_file file (some (offset k)) limit).next_offset

def content (k : Nat) : List Char := (read_file file (some (offset file limit k)) limit).content

end LeanFlow.Paging
