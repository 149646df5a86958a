import LeanFlow.Receipts.Ledger
import Mathlib.Data.List.Basic

/-! What the ledger keeps.

The writer measures one rendering of the ledger and writes another, and the reader goes by
the size of the file. Where the file of what is kept is in bounds too, the ledger holds a
most recent part of what was recorded, in every state of a run; where it is not, nothing is
read back. -/
namespace LeanFlow.Receipts
open General

section ledger

variable (float_repr : Rat → List Char)

/-- Within the bounds, as the writer measures them. -/
def Measured (records : Records) : Prop :=
  records.length ≤ MAX_CANDIDATES ∧ measure float_repr records ≤ MAX_RECEIPT_BYTES

/-- Within the bounds, as the reader does. -/
def Stored (records : Records) : Prop := Json.file_size float_repr (payload records) ≤ MAX_RECEIPT_BYTES

/-- Of these records, every most recent part that the writer accepts is one that the reader accepts. -/
def Agrees (records : Records) : Prop :=
  ∀ part, part <:+ records → part ≠ [] → Measured float_repr part → Stored float_repr part

/-! ### Eviction -/

theorem evict_ok {records kept : Records} (h : evict float_repr records = .ok kept) :
    kept <:+ records ∧ Measured float_repr kept ∧ ∀ part, part <:+ records → Measured float_repr part → part <:+ kept := by
  induction records with
  | nil =>
    rw [evict] at h
    split at h
    · cases h
    · rename_i hfits
      cases h
      obtain ⟨hlength, hmeasure⟩ := not_or.mp hfits
      exact ⟨List.suffix_refl _, ⟨Nat.not_lt.mp hlength, Nat.not_lt.mp hmeasure⟩, fun part hpart _ => hpart⟩
  | cons record rest ih =>
    rw [evict] at h
    split at h
    · rename_i hexceeds
      obtain ⟨hsuffix, hmeasured, hmost⟩ := ih h
      refine ⟨hsuffix.trans (List.suffix_cons _ _), hmeasured, fun part hpart hfits => ?_⟩
      rcases List.suffix_cons_iff.mp hpart with rfl | hrest
      · exact absurd hexceeds (not_or.mpr ⟨Nat.not_lt.mpr hfits.1, Nat.not_lt.mpr hfits.2⟩)
      · exact hmost part hrest hfits
    · rename_i hfits
      cases h
      obtain ⟨hlength, hmeasure⟩ := not_or.mp hfits
      exact ⟨List.suffix_refl _, ⟨Nat.not_lt.mp hlength, Nat.not_lt.mp hmeasure⟩, fun part hpart _ => hpart⟩

/-- Eviction ends while the last record is left, if that one fits. -/
theorem evict_ends (records : Records) {last : String × Json} (hlast : Measured float_repr [last]) :
    ∃ kept, evict float_repr (records ++ [last]) = .ok kept ∧ [last] <:+ kept := by
  induction records with
  | nil =>
    refine ⟨[last], ?_, List.suffix_refl _⟩
    rw [List.nil_append, evict, if_neg (not_or.mpr ⟨Nat.not_lt.mpr hlast.1, Nat.not_lt.mpr hlast.2⟩)]
  | cons record rest ih =>
    rw [List.cons_append, evict]
    split
    · exact ih
    · exact ⟨record :: (rest ++ [last]), rfl, ⟨record :: rest, rfl⟩⟩

/-! ### Reading back -/

theorem get_resources (records : Records) :
    (Fields.get? [("version", .num 1), ("resources", .obj records)] "resources").getD (.obj []) = .obj records := rfl

/-- A file in bounds is read back. -/
theorem receipts_payload {records : Records} (hlength : records.length ≤ MAX_CANDIDATES) (hstored : Stored float_repr records) :
    receipts float_repr (some (payload records)) = records := by
  have hsize : ¬ Json.file_size float_repr (.obj [("version", .num 1), ("resources", .obj records)]) > MAX_RECEIPT_BYTES :=
    Nat.not_lt.mpr hstored
  rw [payload, receipts, if_neg hsize, get_resources]
  exact if_pos hlength

/-- A file out of bounds holds nothing for the reader. -/
theorem receipts_nil {records : Records} (hnot : ¬ Stored float_repr records) : receipts float_repr (some (payload records)) = [] := by
  have hsize : Json.file_size float_repr (.obj [("version", .num 1), ("resources", .obj records)]) > MAX_RECEIPT_BYTES :=
    Nat.not_le.mp hnot
  rw [payload, receipts, if_pos hsize]

theorem encode_append (a b : List Char) : (Utf8.encode (a ++ b)).length = (Utf8.encode a).length + (Utf8.encode b).length := by
  rw [Utf8.encode, List.flatMap_append, List.length_append, Utf8.encode, Utf8.encode]

/-- The records are in the middle of the file. -/
theorem layout_payload : ∃ before after : List Char, ∀ records : Records,
    Json.layout float_repr 0 (payload records) = before ++ (Json.layout float_repr 1 (.obj records) ++ after) := by
  refine ⟨'\x7b' :: (newline 1 ++ quote_wide "version".toList ++ ':' :: ' ' :: Json.layout float_repr 1 (.num 1) ++
    ',' :: (newline 1 ++ quote_wide "resources".toList ++ [':', ' '])), newline 0 ++ ['\x7d'], fun records => ?_⟩
  simp only [payload, Json.layout, Json.layout_fields, List.append_assoc, List.cons_append, List.nil_append]

/-- A file with one record less is smaller. -/
theorem file_size_cons (record next : String × Json) (rest : Records) :
    Json.file_size float_repr (payload (next :: rest)) ≤ Json.file_size float_repr (payload (record :: next :: rest)) := by
  obtain ⟨before, after, hlayout⟩ := layout_payload float_repr
  have hmore : (Utf8.encode (Json.layout float_repr 1 (.obj (next :: rest)))).length ≤
      (Utf8.encode (Json.layout float_repr 1 (.obj (record :: next :: rest)))).length := by
    obtain ⟨name, item⟩ := record
    obtain ⟨name', item'⟩ := next
    have hfields : ∃ first fields : List Char,
        Json.layout float_repr 1 (.obj ((name', item') :: rest)) = ['\x7b'] ++ fields ∧
          Json.layout float_repr 1 (.obj ((name, item) :: (name', item') :: rest)) = ['\x7b'] ++ (first ++ ([','] ++ fields)) :=
      ⟨newline (1 + 1) ++ quote_wide name.toList ++ ':' :: ' ' :: Json.layout float_repr (1 + 1) item, _, by rw [Json.layout]; rfl,
        by rw [Json.layout, Json.layout_fields]; rfl⟩
    obtain ⟨first, fields, hfew, hmany⟩ := hfields
    rw [hfew, hmany, encode_append, encode_append, encode_append, encode_append]
    omega
  rw [Json.file_size, Json.file_size, hlayout, hlayout, encode_append, encode_append, encode_append, encode_append]
  omega

theorem file_size_suffix {part records : Records} (h : part <:+ records) (hne : part ≠ []) :
    Json.file_size float_repr (payload part) ≤ Json.file_size float_repr (payload records) := by
  induction records with
  | nil => exact absurd (List.suffix_nil.mp h) hne
  | cons record rest ih =>
    rcases List.suffix_cons_iff.mp h with rfl | hrest
    · exact Nat.le_refl _
    · cases rest with
      | nil => exact absurd (List.suffix_nil.mp hrest) hne
      | cons next rest => exact (ih hrest).trans (file_size_cons float_repr record next rest)

/-- What is kept is read back if and only if writer and reader agree. -/
theorem kept_iff {records kept : Records} (h : evict float_repr records = .ok kept) (hne : kept ≠ []) :
    Stored float_repr kept ↔ Agrees float_repr records := by
  obtain ⟨hsuffix, hmeasured, hmost⟩ := evict_ok float_repr h
  constructor
  · intro hstored part hpart hnonempty hfits
    exact (file_size_suffix float_repr (hmost part hpart hfits) hnonempty).trans hstored
  · exact fun hagrees => hagrees kept hsuffix hne hmeasured

end ledger

end LeanFlow.Receipts
