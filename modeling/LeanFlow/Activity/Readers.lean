import Mathlib.Data.List.Basic
import Mathlib.Data.List.Infix

/-! Readers of a JSONL activity stream, forward and newest first.

The forward reader takes lines up to a limit from the start; the reverse one finds the
newlines backwards, a chunk at a time, and reads what stands between two of them. Both
skip what is no object. -/
namespace LeanFlow.Activity

abbrev Bytes := List UInt8

def DISCARD_CHUNK_BYTES : Nat := 64 * 1024
def REVERSE_SCAN_CHUNK_BYTES : {size : Nat // 0 < size} := ⟨64 * 1024, by decide⟩

theorem discard_chunk_pos : 0 < DISCARD_CHUNK_BYTES := by decide

/-! ### Forward -/

/-- `handle.readline(size)`: the line or as much of it, and what is left. -/
def readline : Nat → Bytes → Bytes × Bytes
  | 0, rest => ([], rest)
  | _ + 1, [] => ([], [])
  | n + 1, b :: rest =>
    if b = 10 then ([b], rest) else (b :: (readline n rest).1, (readline n rest).2)

theorem readline_append (n : Nat) (rest : Bytes) : (readline n rest).1 ++ (readline n rest).2 = rest := by
  induction n generalizing rest with
  | zero => rfl
  | succ n ih =>
    cases rest with
    | nil => rfl
    | cons b rest =>
      rw [readline]
      split
      · rfl
      · rw [List.cons_append, ih rest]

theorem readline_shorter {n : Nat} {rest : Bytes} (h : (readline n rest).1 ≠ []) :
    (readline n rest).2.length < rest.length := by
  have hlength := congrArg List.length (readline_append n rest)
  rw [List.length_append] at hlength
  have := List.length_pos_iff.mpr h
  omega

def discard_record_tail (rest : Bytes) : Bytes :=
  if h : (readline DISCARD_CHUNK_BYTES rest).1 = [] then (readline DISCARD_CHUNK_BYTES rest).2
  else if (readline DISCARD_CHUNK_BYTES rest).1.getLast? = some 10 then (readline DISCARD_CHUNK_BYTES rest).2
  else discard_record_tail (readline DISCARD_CHUNK_BYTES rest).2
termination_by rest.length
decreasing_by exact readline_shorter h

theorem discard_record_tail_le (rest : Bytes) : (discard_record_tail rest).length ≤ rest.length := by
  have hlength := congrArg List.length (readline_append DISCARD_CHUNK_BYTES rest)
  rw [List.length_append] at hlength
  fun_induction discard_record_tail rest with
  | case1 => omega
  | case2 => omega
  | case3 rest h hlast ih =>
    have := ih (by rw [← List.length_append, readline_append])
    omega

-- `json.loads`, where it gives an object
variable {α : Type} (loads : Bytes → Option α)

def record_limit (max_record_bytes : Int) : Nat := (max 1 max_record_bytes).toNat

/-- The loop of `iter_jsonl_dicts` over one file. -/
def read_forward (limit : Nat) (rest : Bytes) : List α :=
  if h : (readline (limit + 1) rest).1 = [] then []
  else if limit < (readline (limit + 1) rest).1.length then
    if (readline (limit + 1) rest).1.getLast? = some 10 then read_forward limit (readline (limit + 1) rest).2
    else read_forward limit (discard_record_tail (readline (limit + 1) rest).2)
  else (loads (readline (limit + 1) rest).1).toList ++ read_forward limit (readline (limit + 1) rest).2
termination_by rest.length
decreasing_by
  · exact readline_shorter h
  · exact Nat.lt_of_le_of_lt (discard_record_tail_le _) (readline_shorter h)
  · exact readline_shorter h

/-- A path that is no file, or cannot be read, is `none`. -/
def iter_jsonl_dicts (paths : List (Option Bytes)) (max_record_bytes : Int) : List α :=
  paths.flatMap fun path => path.elim [] (read_forward loads (record_limit max_record_bytes))

/-! ### In reverse -/

/-- `chunk.rfind(b"\n", 0, stop)` -/
def rfind (chunk : Bytes) : Nat → Option Nat
  | 0 => none
  | stop + 1 => if chunk[stop]? = some 10 then some stop else rfind chunk stop

theorem rfind_eq_some {chunk : Bytes} {stop offset : Nat} (h : rfind chunk stop = some offset) :
    offset < stop ∧ chunk[offset]? = some 10 ∧ ∀ i, offset < i → i < stop → chunk[i]? ≠ some 10 := by
  induction stop with
  | zero => exact absurd h (by simp [rfind])
  | succ stop ih =>
    rw [rfind] at h
    split at h
    · rename_i hnew
      obtain rfl := Option.some.inj h
      exact ⟨Nat.lt_succ_self _, hnew, fun i hi hstop => absurd hstop (by omega)⟩
    · rename_i hnew
      obtain ⟨hlt, hat, hclear⟩ := ih h
      refine ⟨by omega, hat, fun i hi hstop => ?_⟩
      by_cases heq : i = stop
      · exact heq ▸ hnew
      · exact hclear i hi (by omega)

theorem rfind_eq_none {chunk : Bytes} {stop : Nat} (h : rfind chunk stop = none) :
    ∀ i < stop, chunk[i]? ≠ some 10 := by
  induction stop with
  | zero => exact fun i hi => absurd hi (Nat.not_lt_zero i)
  | succ stop ih =>
    rw [rfind] at h
    split at h
    · exact absurd h (by simp)
    · rename_i hnew
      intro i hi
      by_cases heq : i = stop
      · exact heq ▸ hnew
      · exact ih h i (by omega)

/-- `handle.seek(start)`, `handle.read(length)` and `json.loads`, within the limit. -/
def read_record (limit : Nat) (file : Bytes) (start length : Nat) : List α :=
  if 0 < length ∧ length ≤ limit then
    if ((file.drop start).take length).length = length then (loads ((file.drop start).take length)).toList else []
  else []

/-- The newlines of one chunk before `stop`, and where the record before them ends. -/
def scan_chunk (limit : Nat) (file chunk : Bytes) (chunk_start stop record_end : Nat) : List α × Nat :=
  match h : rfind chunk stop with
  | none => ([], record_end)
  | some offset =>
    have := (rfind_eq_some h).1
    let more := scan_chunk limit file chunk chunk_start offset (chunk_start + offset)
    (read_record loads limit file (chunk_start + offset + 1) (record_end - (chunk_start + offset + 1)) ++ more.1, more.2)
termination_by stop

/-- The loop of `iter_jsonl_dicts_reverse` over one file, by chunks of a size, and the first
record after it. -/
def read_reverse (size : {size : Nat // 0 < size}) (limit : Nat) (file : Bytes) (position record_end : Nat) : List α :=
  if h : 0 < position then
    let chunk_start := position - size
    let chunk := (file.drop chunk_start).take (position - chunk_start)
    if chunk = [] then read_record loads limit file 0 record_end
    else
      let found := scan_chunk loads limit file chunk chunk_start chunk.length record_end
      found.1 ++ read_reverse size limit file chunk_start found.2
  else read_record loads limit file 0 record_end
termination_by position
decreasing_by exact Nat.sub_lt h size.2

def iter_jsonl_dicts_reverse (paths : List (Option Bytes)) (max_record_bytes : Int) : List α :=
  paths.reverse.flatMap fun path => path.elim [] fun file =>
    read_reverse loads REVERSE_SCAN_CHUNK_BYTES (record_limit max_record_bytes) file file.length file.length

end LeanFlow.Activity
