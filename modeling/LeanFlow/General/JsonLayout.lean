import LeanFlow.General.JsonText
import LeanFlow.General.Utf8

/-! `json.dump` without ASCII escapes: with an indent of two, as in a file, and on one line.

The file's size is that of its UTF-8 bytes. The line is the ASCII text with the escapes undone, and
tells values apart as that one does (`dumps_wide_injective`). -/
namespace LeanFlow.General

/-- A character of a string: only quotes, backslashes and control characters are escaped. -/
def escape_wide (c : Char) : List Char :=
  match escape_letter c with
  | some letter => ['\\', letter]
  | none => if c.toNat < 32 then escape_unit c.toNat else [c]

def quote_wide (s : List Char) : List Char := '"' :: (s.flatMap escape_wide ++ ['"'])

/-- A new line at this depth. -/
def newline (depth : Nat) : List Char := '\n' :: List.replicate (2 * depth) ' '

/-! ### Escapes -/

/-- The ASCII escape of a character that is left as it is. -/
def narrow (c : Char) : List Char := if c.toNat ≤ 126 then [c] else escape c

theorem flatMap_narrow {s : List Char} (h : ∀ c ∈ s, c.toNat ≤ 126) : s.flatMap narrow = s := by
  induction s with
  | nil => rfl
  | cons c s ih =>
    obtain ⟨hc, hs⟩ := List.forall_mem_cons.mp h
    rw [List.flatMap_cons, ih hs, narrow, if_pos hc]
    rfl

theorem hex4_ascii (n : Nat) : ∀ c ∈ hex4 n, c.toNat ≤ 126 := by
  have hdigit : ∀ a < 16, (Nat.digitChar a).toNat ≤ 126 := by decide
  simp only [hex4, List.forall_mem_cons, List.not_mem_nil, false_imp_iff, implies_true, and_true]
  exact ⟨hdigit _ (Nat.mod_lt _ (by decide)), hdigit _ (Nat.mod_lt _ (by decide)), hdigit _ (Nat.mod_lt _ (by decide)),
    hdigit _ (Nat.mod_lt _ (by decide))⟩

theorem escape_letter_ascii {c letter : Char} (h : escape_letter c = some letter) : letter.toNat ≤ 126 := by
  unfold escape_letter at h
  split at h <;> cases h <;> decide

theorem escape_narrow (c : Char) : (escape_wide c).flatMap narrow = escape c := by
  unfold escape_wide
  cases hletter : escape_letter c with
  | some letter =>
    rw [escape, hletter]
    exact flatMap_narrow (List.forall_mem_cons.mpr ⟨by decide, List.forall_mem_singleton.mpr (escape_letter_ascii hletter)⟩)
  | none =>
    dsimp only
    by_cases hcontrol : c.toNat < 32
    · have hplain : ¬(32 ≤ c.toNat ∧ c.toNat ≤ 126) := by omega
      have hsmall : c.toNat < 65536 := by omega
      rw [if_pos hcontrol, escape, hletter]
      dsimp only
      rw [if_neg hplain, if_pos hsmall]
      exact flatMap_narrow (List.forall_mem_cons.mpr ⟨by decide, List.forall_mem_cons.mpr ⟨by decide, hex4_ascii _⟩⟩)
    · rw [if_neg hcontrol, List.flatMap_cons, List.flatMap_nil, List.append_nil, narrow]
      by_cases hplain : c.toNat ≤ 126
      · rw [if_pos hplain, escape, hletter]
        exact (if_pos ⟨Nat.le_of_not_lt hcontrol, hplain⟩).symm
      · rw [if_neg hplain]

theorem quote_narrow (s : List Char) : (quote_wide s).flatMap narrow = quote s := by
  have hmark : narrow '"' = ['"'] := rfl
  rw [quote_wide, quote, List.flatMap_cons, List.flatMap_append, List.flatMap_assoc, hmark]
  simp only [escape_narrow, List.flatMap_cons, List.flatMap_nil, hmark]
  rfl

theorem int_text_ascii (n : Int) : ∀ c ∈ int_text n, c.toNat ≤ 126 := by
  have hdigits (n : Nat) : ∀ c ∈ Nat.toDigits 10 n, c.toNat ≤ 126 := by
    intro c hc
    have hdigit := Nat.isDigit_of_mem_toDigits (b := 10) (by decide) (by decide) hc
    simp only [Char.isDigit, Bool.and_eq_true, decide_eq_true_eq] at hdigit
    have : c.val.toNat ≤ '9'.val.toNat := hdigit.2
    exact Nat.le_trans this (by decide)
  cases n with
  | ofNat n => exact hdigits n
  | negSucc n => exact List.forall_mem_cons.mpr ⟨by decide, hdigits _⟩

/-! ### Values -/

namespace Json

section Layout

variable (float_repr : Rat → List Char)

mutual

def layout (depth : Nat) : Json → List Char
  | .null => "null".toList
  | .bool value => (if value then "true" else "false").toList
  | .num value => if value.den = 1 then int_text value.num else float_repr value
  | .str value => quote_wide value.toList
  | .arr [] => ['[', ']']
  | .arr (item :: items) => '[' :: (newline (depth + 1) ++ layout (depth + 1) item ++ layout_items depth items)
  | .obj [] => ['\x7b', '\x7d']
  | .obj ((name, item) :: fields) =>
    '\x7b' :: (newline (depth + 1) ++ quote_wide name.toList ++ ':' :: ' ' :: layout (depth + 1) item ++ layout_fields depth fields)

/-- The items after the first, and the end of the array. -/
def layout_items (depth : Nat) : List Json → List Char
  | [] => newline depth ++ [']']
  | item :: items => ',' :: (newline (depth + 1) ++ layout (depth + 1) item ++ layout_items depth items)

def layout_fields (depth : Nat) : List (String × Json) → List Char
  | [] => newline depth ++ ['\x7d']
  | (name, item) :: fields =>
    ',' :: (newline (depth + 1) ++ quote_wide name.toList ++ ':' :: ' ' :: layout (depth + 1) item ++ layout_fields depth fields)

end

/-- The size of the file. -/
def file_size (value : Json) : Nat := (Utf8.encode (layout float_repr 0 value)).length

end Layout

section Wide

variable (float_repr : Rat → List Char)

mutual

/-- `json.dumps` with `ensure_ascii=False`. -/
def dumps_wide : Json → List Char
  | .null => "null".toList
  | .bool value => (if value then "true" else "false").toList
  | .num value => if value.den = 1 then int_text value.num else float_repr value
  | .str value => quote_wide value.toList
  | .arr [] => ['[', ']']
  | .arr (item :: items) => '[' :: (dumps_wide item ++ dumps_wide_items items)
  | .obj [] => ['\x7b', '\x7d']
  | .obj ((name, item) :: fields) =>
    '\x7b' :: (quote_wide name.toList ++ ':' :: ' ' :: (dumps_wide item ++ dumps_wide_fields fields))

def dumps_wide_items : List Json → List Char
  | [] => [']']
  | item :: items => ',' :: ' ' :: (dumps_wide item ++ dumps_wide_items items)

def dumps_wide_fields : List (String × Json) → List Char
  | [] => ['\x7d']
  | (name, item) :: fields =>
    ',' :: ' ' :: (quote_wide name.toList ++ ':' :: ' ' :: (dumps_wide item ++ dumps_wide_fields fields))

end

end Wide

variable {float_repr : Rat → List Char}

mutual

/-- The escaped text is that of the wide one, character by character. -/
theorem dumps_narrow : ∀ {j : Json}, j.Integral → (dumps_wide float_repr j).flatMap narrow = dumps float_repr j
  | .null, _ => rfl
  | .bool true, _ => rfl
  | .bool false, _ => rfl
  | .num value, h => by
    have hden : value.den = 1 := h
    rw [dumps_wide, dumps, if_pos hden]
    exact flatMap_narrow (int_text_ascii _)
  | .str value, _ => quote_narrow _
  | .arr [], _ => rfl
  | .arr (item :: items), h => by
    rw [dumps_wide, dumps, List.flatMap_cons, List.flatMap_append, dumps_narrow h.1, items_narrow h.2]
    rfl
  | .obj [], _ => rfl
  | .obj ((name, item) :: fields), h => by
    rw [dumps_wide, dumps]
    simp only [List.flatMap_cons, List.flatMap_append, quote_narrow, dumps_narrow h.1, fields_narrow h.2]
    rfl

theorem items_narrow : ∀ {items : List Json}, IntegralItems items →
    (dumps_wide_items float_repr items).flatMap narrow = dumps_items float_repr items
  | [], _ => rfl
  | item :: items, h => by
    rw [dumps_wide_items, dumps_items]
    simp only [List.flatMap_cons, List.flatMap_append, dumps_narrow h.1, items_narrow h.2]
    rfl

theorem fields_narrow : ∀ {fields : List (String × Json)}, IntegralFields fields →
    (dumps_wide_fields float_repr fields).flatMap narrow = dumps_fields float_repr fields
  | [], _ => rfl
  | (name, item) :: fields, h => by
    rw [dumps_wide_fields, dumps_fields]
    simp only [List.flatMap_cons, List.flatMap_append, quote_narrow, dumps_narrow h.1, fields_narrow h.2]
    rfl

end

theorem dumps_wide_injective {j k : Json} (hj : j.Integral) (hk : k.Integral)
    (h : dumps_wide float_repr j = dumps_wide float_repr k) : j = k := by
  refine @dumps_injective float_repr j k hj hk ?_
  rw [← dumps_narrow hj, ← dumps_narrow hk, h]

end Json

end LeanFlow.General
