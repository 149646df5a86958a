import LeanFlow.General.Json
import Mathlib.Data.Rat.Lemmas

/-! `json.dumps`: the ASCII text of a JSON value.

The text is written so that it can be read back: what follows a value does not
matter, as long as it does not go on with a digit. -/
namespace LeanFlow.General

/-! ### Strings -/

/-- Four hexadecimal digits. -/
def hex4 (n : Nat) : List Char :=
  [(n / 4096 % 16).digitChar, (n / 256 % 16).digitChar, (n / 16 % 16).digitChar, (n % 16).digitChar]

/-- One UTF-16 code unit. -/
def escape_unit (unit : Nat) : List Char := '\\' :: 'u' :: hex4 unit

/-- The letter that stands for a character after a backslash. -/
def escape_letter : Char → Option Char
  | '"' => some '"'
  | '\\' => some '\\'
  | '\n' => some 'n'
  | '\r' => some 'r'
  | '\t' => some 't'
  | '\x0c' => some 'f'
  | '\x08' => some 'b'
  | _ => none

def escape (c : Char) : List Char :=
  match escape_letter c with
  | some letter => ['\\', letter]
  | none =>
    if 32 ≤ c.toNat ∧ c.toNat ≤ 126 then [c]
    else if c.toNat < 65536 then escape_unit c.toNat
    else escape_unit (55296 + (c.toNat - 65536) / 1024) ++ escape_unit (56320 + (c.toNat - 65536) % 1024)

def quote (s : List Char) : List Char := '"' :: (s.flatMap escape ++ ['"'])

theorem hex4_inj {m n : Nat} (hm : m < 65536) (hn : n < 65536) (h : hex4 m = hex4 n) : m = n := by
  have hdigit : ∀ a < 16, ∀ b < 16, Nat.digitChar a = Nat.digitChar b → a = b := by decide
  simp only [hex4, List.cons.injEq, and_true] at h
  obtain ⟨h₁, h₂, h₃, h₄⟩ := h
  have e₁ := hdigit _ (Nat.mod_lt _ (by decide)) _ (Nat.mod_lt _ (by decide)) h₁
  have e₂ := hdigit _ (Nat.mod_lt _ (by decide)) _ (Nat.mod_lt _ (by decide)) h₂
  have e₃ := hdigit _ (Nat.mod_lt _ (by decide)) _ (Nat.mod_lt _ (by decide)) h₃
  have e₄ := hdigit _ (Nat.mod_lt _ (by decide)) _ (Nat.mod_lt _ (by decide)) h₄
  omega

theorem escape_unit_inj {m n : Nat} (hm : m < 65536) (hn : n < 65536) {s t : List Char}
    (h : escape_unit m ++ s = escape_unit n ++ t) : m = n ∧ s = t := by
  have hlength : (escape_unit m).length = (escape_unit n).length := rfl
  obtain ⟨hunit, hst⟩ := List.append_inj h hlength
  simp only [escape_unit, List.cons.injEq, true_and] at hunit
  exact ⟨hex4_inj hm hn hunit, hst⟩

theorem escape_letter_inj {c d letter : Char} (hc : escape_letter c = some letter) (hd : escape_letter d = some letter) :
    c = d := by
  unfold escape_letter at hc hd
  split at hc <;> cases hc <;> split at hd <;> first | rfl | cases hd

theorem escape_letter_ne {c letter : Char} (h : escape_letter c = some letter) : letter ≠ 'u' := by
  unfold escape_letter at h
  split at h <;> cases h <;> decide

/-- How a character is written. -/
theorem escape_cases (c : Char) :
    (∃ letter, escape_letter c = some letter ∧ escape c = ['\\', letter]) ∨ (escape_letter c = none ∧ escape c = [c]) ∨
      (c.toNat < 65536 ∧ escape c = escape_unit c.toNat) ∨
      (65536 ≤ c.toNat ∧ escape c = escape_unit (55296 + (c.toNat - 65536) / 1024) ++
        escape_unit (56320 + (c.toNat - 65536) % 1024)) := by
  unfold escape
  cases hletter : escape_letter c with
  | some letter => exact Or.inl ⟨letter, rfl, rfl⟩
  | none =>
    by_cases hplain : 32 ≤ c.toNat ∧ c.toNat ≤ 126
    · exact Or.inr (Or.inl ⟨rfl, if_pos hplain⟩)
    · by_cases hsmall : c.toNat < 65536
      · exact Or.inr (Or.inr (Or.inl ⟨hsmall, (if_neg hplain).trans (if_pos hsmall)⟩))
      · exact Or.inr (Or.inr (Or.inr ⟨not_lt.mp hsmall, (if_neg hplain).trans (if_neg hsmall)⟩))

theorem toNat_valid (c : Char) : c.toNat < 55296 ∨ (57343 < c.toNat ∧ c.toNat < 1114112) := c.valid

theorem ne_backslash {c : Char} (h : escape_letter c = none) : c ≠ '\\' := by
  rintro rfl
  cases h

/-- A character that is not escaped is read back. -/
theorem plain_inj {c d : Char} {s t : List Char} (hc : escape_letter c = none) (h : c :: s = escape d ++ t) :
    c = d ∧ s = t := by
  rcases escape_cases d with ⟨b, hb, hd⟩ | ⟨hb, hd⟩ | ⟨hb, hd⟩ | ⟨hb, hd⟩ <;> rw [hd] at h
  · exact absurd (List.cons.inj h).1 (ne_backslash hc)
  · exact List.cons.inj h
  · exact absurd (List.cons.inj h).1 (ne_backslash hc)
  · exact absurd (List.cons.inj h).1 (ne_backslash hc)

/-- A letter after a backslash is read back. -/
theorem letter_inj {c d letter : Char} {s t : List Char} (hc : escape_letter c = some letter)
    (h : '\\' :: letter :: s = escape d ++ t) : c = d ∧ s = t := by
  rcases escape_cases d with ⟨b, hb, hd⟩ | ⟨hb, hd⟩ | ⟨hb, hd⟩ | ⟨hb, hd⟩ <;> rw [hd] at h
  · obtain ⟨-, h⟩ := List.cons.inj h
    obtain ⟨rfl, hst⟩ := List.cons.inj h
    exact ⟨escape_letter_inj hc hb, hst⟩
  · exact absurd (List.cons.inj h).1.symm (ne_backslash hb)
  · exact absurd (List.cons.inj (List.cons.inj h).2).1 (escape_letter_ne hc)
  · exact absurd (List.cons.inj (List.cons.inj h).2).1 (escape_letter_ne hc)

/-- The code unit after a backslash tells whether another one follows. -/
theorem unit_inj {d : Char} {u : Nat} {s t : List Char} (hu : u < 65536) (h : escape_unit u ++ s = escape d ++ t) :
    (d.toNat < 65536 ∧ u = d.toNat ∧ s = t) ∨ (65536 ≤ d.toNat ∧ u = 55296 + (d.toNat - 65536) / 1024 ∧
      s = escape_unit (56320 + (d.toNat - 65536) % 1024) ++ t) := by
  have hvalid := toNat_valid d
  rcases escape_cases d with ⟨b, hb, hd⟩ | ⟨hb, hd⟩ | ⟨hb, hd⟩ | ⟨hb, hd⟩ <;> rw [hd] at h
  · exact absurd (List.cons.inj (List.cons.inj h).2).1.symm (escape_letter_ne hb)
  · exact absurd (List.cons.inj h).1.symm (ne_backslash hb)
  · exact Or.inl ⟨hb, escape_unit_inj hu hb h⟩
  · rw [List.append_assoc] at h
    exact Or.inr ⟨hb, escape_unit_inj hu (by omega) h⟩

/-- A character is read back whatever follows it. -/
theorem escape_inj {c d : Char} {s t : List Char} (h : escape c ++ s = escape d ++ t) : c = d ∧ s = t := by
  have hvalid := toNat_valid c
  have hvalid' := toNat_valid d
  rcases escape_cases c with ⟨a, ha, hc⟩ | ⟨ha, hc⟩ | ⟨ha, hc⟩ | ⟨ha, hc⟩ <;> rw [hc] at h
  · exact letter_inj ha h
  · exact plain_inj ha h
  · rcases unit_inj ha h with ⟨-, hunit, hst⟩ | ⟨hlarge, hunit, -⟩
    · exact ⟨Char.toNat_inj.mp hunit, hst⟩
    · omega
  · rw [List.append_assoc] at h
    rcases unit_inj (by omega) h with ⟨hsmall, hunit, -⟩ | ⟨hlarge, hunit, hst⟩
    · omega
    · obtain ⟨hlow, hst⟩ := escape_unit_inj (by omega) (by omega) hst
      exact ⟨Char.toNat_inj.mp (by omega), hst⟩

theorem escape_head (c : Char) (s : List Char) : (escape c ++ s).head? ≠ some '"' := by
  rcases escape_cases c with ⟨a, ha, hc⟩ | ⟨ha, hc⟩ | ⟨ha, hc⟩ | ⟨ha, hc⟩ <;> rw [hc]
  · exact fun h => absurd (Option.some.inj h) (by decide)
  · rintro ⟨⟩
    cases ha
  · exact fun h => absurd (Option.some.inj h) (by decide)
  · exact fun h => absurd (Option.some.inj h) (by decide)

/-- A quoted string is read back whatever follows it. -/
theorem quote_inj {a b s t : List Char} (h : quote a ++ s = quote b ++ t) : a = b ∧ s = t := by
  replace h : a.flatMap escape ++ '"' :: s = b.flatMap escape ++ '"' :: t := by simpa [quote] using h
  induction a generalizing b with
  | nil =>
    cases b with
    | nil => exact ⟨rfl, (List.cons.inj h).2⟩
    | cons d b =>
      rw [List.flatMap_cons, List.append_assoc] at h
      exact absurd (congrArg List.head? h).symm (escape_head d _)
  | cons c a ih =>
    cases b with
    | nil =>
      rw [List.flatMap_cons, List.append_assoc] at h
      exact absurd (congrArg List.head? h) (escape_head c _)
    | cons d b =>
      rw [List.flatMap_cons, List.flatMap_cons, List.append_assoc, List.append_assoc] at h
      obtain ⟨rfl, hrest⟩ := escape_inj h
      obtain ⟨rfl, hst⟩ := ih hrest
      exact ⟨rfl, hst⟩

/-! ### Numbers -/

def int_text : Int → List Char
  | .ofNat n => Nat.toDigits 10 n
  | .negSucc n => '-' :: Nat.toDigits 10 (n + 1)

/-- The text does not go on with a digit. -/
def Ends (s : List Char) : Prop := ∀ c, s.head? = some c → c.isDigit = false

theorem ends_nil : Ends [] := by
  rintro c ⟨⟩

theorem digits_inj {m n : Nat} {s t : List Char} (hs : Ends s) (ht : Ends t)
    (h : Nat.toDigits 10 m ++ s = Nat.toDigits 10 n ++ t) : m = n ∧ s = t := by
  have hspan {n : Nat} {s : List Char} (hs : Ends s) :
      (Nat.toDigits 10 n ++ s).takeWhile Char.isDigit = Nat.toDigits 10 n := by
    rw [List.takeWhile_append_of_pos fun c hc => Nat.isDigit_of_mem_toDigits (by decide) (by decide) hc]
    cases s with
    | nil => simp
    | cons c s => simp [hs c rfl]
  have hdigits : Nat.toDigits 10 m = Nat.toDigits 10 n := by rw [← hspan hs, h, hspan ht]
  refine ⟨?_, List.append_cancel_left (hdigits ▸ h)⟩
  rw [← Nat.ofDigitChars_ten_toDigits (n := m), hdigits, Nat.ofDigitChars_ten_toDigits]

theorem digits_head (n : Nat) (s : List Char) : ∃ c, (Nat.toDigits 10 n ++ s).head? = some c ∧ c.isDigit = true := by
  cases hdigits : Nat.toDigits 10 n with
  | nil => exact absurd hdigits Nat.toDigits_ne_nil
  | cons c rest =>
    refine ⟨c, rfl, Nat.isDigit_of_mem_toDigits (b := 10) (n := n) (by decide) (by decide) ?_⟩
    rw [hdigits]
    exact List.mem_cons_self ..

theorem int_text_inj {m n : Int} {s t : List Char} (hs : Ends s) (ht : Ends t)
    (h : int_text m ++ s = int_text n ++ t) : m = n ∧ s = t := by
  have hminus (k : Nat) {x y : List Char} (h : Nat.toDigits 10 k ++ x = '-' :: y) : False := by
    obtain ⟨c, hc, hdigit⟩ := digits_head k x
    rw [h] at hc
    obtain rfl := Option.some.inj hc
    cases hdigit
  cases m with
  | ofNat m =>
    cases n with
    | ofNat n =>
      obtain ⟨rfl, hst⟩ := digits_inj hs ht h
      exact ⟨rfl, hst⟩
    | negSucc n => exact (hminus m h).elim
  | negSucc m =>
    cases n with
    | ofNat n => exact (hminus n h.symm).elim
    | negSucc n =>
      obtain ⟨hmn, hst⟩ := digits_inj hs ht (List.cons.inj h).2
      obtain rfl := Nat.succ.inj hmn
      exact ⟨rfl, hst⟩

/-! ### Values -/

namespace Json

section Dumps

variable (float_repr : Rat → List Char)

mutual

def dumps : Json → List Char
  | .null => "null".toList
  | .bool value => (if value then "true" else "false").toList
  | .num value => if value.den = 1 then int_text value.num else float_repr value
  | .str value => quote value.toList
  | .arr [] => ['[', ']']
  | .arr (item :: items) => '[' :: (dumps item ++ dumps_items items)
  | .obj [] => ['{', '}']
  | .obj ((name, item) :: fields) => '{' :: (quote name.toList ++ ':' :: ' ' :: (dumps item ++ dumps_fields fields))

/-- The items after the first, and the end of the array. -/
def dumps_items : List Json → List Char
  | [] => [']']
  | item :: items => ',' :: ' ' :: (dumps item ++ dumps_items items)

def dumps_fields : List (String × Json) → List Char
  | [] => ['}']
  | (name, item) :: fields => ',' :: ' ' :: (quote name.toList ++ ':' :: ' ' :: (dumps item ++ dumps_fields fields))

end

end Dumps

mutual

/-- Every number is an integer. -/
def Integral : Json → Prop
  | .num value => value.den = 1
  | .arr items => IntegralItems items
  | .obj fields => IntegralFields fields
  | _ => True

def IntegralItems : List Json → Prop
  | [] => True
  | item :: items => Integral item ∧ IntegralItems items

def IntegralFields : List (String × Json) → Prop
  | [] => True
  | (_, item) :: fields => Integral item ∧ IntegralFields fields

end

variable {float_repr : Rat → List Char}

theorem ends_items (items : List Json) (s : List Char) : Ends (dumps_items float_repr items ++ s) := by
  cases items <;> rintro c ⟨⟩ <;> rfl

theorem ends_fields (fields : List (String × Json)) (s : List Char) : Ends (dumps_fields float_repr fields ++ s) := by
  rcases fields with _ | ⟨⟨name, item⟩, fields⟩ <;> rintro c ⟨⟩ <;> rfl

/-- What a value starts with. -/
inductive Starts : Json → Char → Prop
  | null : Starts .null 'n'
  | true : Starts (.bool true) 't'
  | false : Starts (.bool false) 'f'
  | digit (value : Rat) (c : Char) (h : c.isDigit = true) : Starts (.num value) c
  | minus (value : Rat) : Starts (.num value) '-'
  | str (value : String) : Starts (.str value) '"'
  | arr (items : List Json) : Starts (.arr items) '['
  | obj (fields : List (String × Json)) : Starts (.obj fields) '{'

theorem starts_dumps {j : Json} (hj : j.Integral) (s : List Char) :
    ∃ c, (dumps float_repr j ++ s).head? = some c ∧ Starts j c := by
  cases j with
  | null => exact ⟨'n', rfl, .null⟩
  | bool value =>
    cases value
    · exact ⟨'f', rfl, .false⟩
    · exact ⟨'t', rfl, .true⟩
  | num value =>
    have hden : value.den = 1 := hj
    rw [dumps, if_pos hden]
    cases value.num with
    | ofNat n =>
      obtain ⟨c, hc, hdigit⟩ := digits_head n s
      exact ⟨c, hc, .digit value c hdigit⟩
    | negSucc n => exact ⟨'-', rfl, .minus value⟩
  | str value => exact ⟨'"', rfl, .str value⟩
  | arr items => cases items <;> exact ⟨'[', rfl, .arr _⟩
  | obj fields => rcases fields with _ | ⟨⟨name, item⟩, fields⟩ <;> exact ⟨'{', rfl, .obj _⟩

/-- The constructor of a value, and which of the two booleans it is. -/
def kind : Json → Nat
  | .null => 0
  | .bool value => if value then 1 else 2
  | .num _ => 3
  | .str _ => 4
  | .arr _ => 5
  | .obj _ => 6

theorem Starts.kind_eq {j k : Json} {c : Char} (hj : Starts j c) (hk : Starts k c) : j.kind = k.kind := by
  cases hj with
  | digit value c h => cases hk <;> first | rfl | cases h
  | null | true | false | minus value | str value | arr items | obj fields =>
    cases hk with
    | digit value c h => first | rfl | cases h
    | _ => rfl

theorem kind_of_dumps {j k : Json} (hj : j.Integral) (hk : k.Integral) {s t : List Char}
    (h : dumps float_repr j ++ s = dumps float_repr k ++ t) : j.kind = k.kind := by
  obtain ⟨c, hc, hstarts⟩ := @starts_dumps float_repr _ hj s
  obtain ⟨d, hd, hstarts'⟩ := @starts_dumps float_repr _ hk t
  rw [h, hd] at hc
  obtain rfl := Option.some.inj hc
  exact hstarts.kind_eq hstarts'

theorem no_bracket {j : Json} (hj : j.Integral) {s t : List Char} {c : Char} (hc : c = ']' ∨ c = '}')
    (h : c :: t = dumps float_repr j ++ s) : False := by
  obtain ⟨d, hd, hstarts⟩ := @starts_dumps float_repr _ hj s
  rw [← h] at hd
  obtain rfl := Option.some.inj hd
  rcases hc with rfl | rfl <;> cases hstarts <;> simp at *

mutual

/-- **A value is read back whatever follows it**, unless a number goes on. -/
theorem dumps_inj : ∀ {j k : Json} {s t : List Char}, j.Integral → k.Integral → Ends s → Ends t →
    dumps float_repr j ++ s = dumps float_repr k ++ t → j = k ∧ s = t
  | .null, k, s, t, hj, hk, _, _, h => by
    have hkind := kind_of_dumps hj hk h
    cases k with
    | null => exact ⟨rfl, List.append_cancel_left h⟩
    | bool value => cases value <;> cases hkind
    | num | str | arr | obj => cases hkind
  | .bool value, k, s, t, hj, hk, _, _, h => by
    have hkind := kind_of_dumps hj hk h
    cases k with
    | bool value' =>
      have hvalue : value = value' := by cases value <;> cases value' <;> first | rfl | cases hkind
      subst hvalue
      exact ⟨rfl, List.append_cancel_left h⟩
    | null | num | str | arr | obj => cases value <;> cases hkind
  | .num value, k, s, t, hj, hk, hs, ht, h => by
    have hkind := kind_of_dumps hj hk h
    cases k with
    | num value' =>
      have hden : value.den = 1 := hj
      have hden' : value'.den = 1 := hk
      rw [dumps, dumps, if_pos hden, if_pos hden'] at h
      obtain ⟨hnum, hst⟩ := int_text_inj hs ht h
      exact ⟨congrArg Json.num (Rat.ext hnum (hden.trans hden'.symm)), hst⟩
    | bool value' => cases value' <;> cases hkind
    | null | str | arr | obj => cases hkind
  | .str value, k, s, t, hj, hk, _, _, h => by
    have hkind := kind_of_dumps hj hk h
    cases k with
    | str value' =>
      obtain ⟨hvalue, hst⟩ := quote_inj h
      exact ⟨congrArg Json.str (String.toList_inj.mp hvalue), hst⟩
    | bool value' => cases value' <;> cases hkind
    | null | num | arr | obj => cases hkind
  | .arr items, k, s, t, hj, hk, hs, ht, h => by
    have hkind := kind_of_dumps hj hk h
    cases k with
    | arr items' =>
      cases items with
      | nil =>
        cases items' with
        | nil => exact ⟨rfl, List.append_cancel_left h⟩
        | cons item' items' =>
          simp only [dumps, List.cons_append, List.append_assoc] at h
          exact (no_bracket hk.1 (Or.inl rfl) (List.cons.inj h).2).elim
      | cons item items =>
        cases items' with
        | nil =>
          simp only [dumps, List.cons_append, List.append_assoc] at h
          exact (no_bracket hj.1 (Or.inl rfl) (List.cons.inj h).2.symm).elim
        | cons item' items' =>
          simp only [dumps, List.cons_append, List.append_assoc] at h
          obtain ⟨hitem, hrest⟩ := dumps_inj hj.1 hk.1 (ends_items items s) (ends_items items' t) (List.cons.inj h).2
          obtain ⟨hitems, hst⟩ := items_inj hj.2 hk.2 hrest
          exact ⟨by rw [hitem, hitems], hst⟩
    | bool value' => cases value' <;> cases hkind
    | null | num | str | obj => cases hkind
  | .obj fields, k, s, t, hj, hk, hs, ht, h => by
    have hkind := kind_of_dumps hj hk h
    cases k with
    | obj fields' =>
      rcases fields with _ | ⟨⟨name, item⟩, fields⟩
      · rcases fields' with _ | ⟨⟨name', item'⟩, fields'⟩
        · exact ⟨rfl, List.append_cancel_left h⟩
        · cases (List.cons.inj (List.cons.inj h).2).1
      · rcases fields' with _ | ⟨⟨name', item'⟩, fields'⟩
        · cases (List.cons.inj (List.cons.inj h).2).1
        · simp only [dumps, List.cons_append, List.append_assoc] at h
          obtain ⟨hname, hrest⟩ := quote_inj (List.cons.inj h).2
          obtain ⟨hitem, hrest⟩ := dumps_inj hj.1 hk.1 (ends_fields fields s) (ends_fields fields' t)
            (List.cons.inj (List.cons.inj hrest).2).2
          obtain ⟨hfields, hst⟩ := fields_inj hj.2 hk.2 hrest
          exact ⟨by rw [String.toList_inj.mp hname, hitem, hfields], hst⟩
    | bool value' => cases value' <;> cases hkind
    | null | num | str | arr => cases hkind

theorem items_inj : ∀ {items items' : List Json} {s t : List Char}, IntegralItems items → IntegralItems items' →
    dumps_items float_repr items ++ s = dumps_items float_repr items' ++ t → items = items' ∧ s = t
  | [], [], s, t, _, _, h => ⟨rfl, List.append_cancel_left h⟩
  | [], _ :: _, s, t, _, _, h => by cases (List.cons.inj h).1
  | _ :: _, [], s, t, _, _, h => by cases (List.cons.inj h).1
  | item :: items, item' :: items', s, t, hi, hi', h => by
    simp only [dumps_items, List.cons_append, List.append_assoc] at h
    obtain ⟨hitem, hrest⟩ := dumps_inj hi.1 hi'.1 (ends_items items s) (ends_items items' t)
      (List.cons.inj (List.cons.inj h).2).2
    obtain ⟨hitems, hst⟩ := items_inj hi.2 hi'.2 hrest
    exact ⟨by rw [hitem, hitems], hst⟩

theorem fields_inj : ∀ {fields fields' : List (String × Json)} {s t : List Char}, IntegralFields fields →
    IntegralFields fields' → dumps_fields float_repr fields ++ s = dumps_fields float_repr fields' ++ t →
    fields = fields' ∧ s = t
  | [], [], s, t, _, _, h => ⟨rfl, List.append_cancel_left h⟩
  | [], (_, _) :: _, s, t, _, _, h => by cases (List.cons.inj h).1
  | (_, _) :: _, [], s, t, _, _, h => by cases (List.cons.inj h).1
  | (name, item) :: fields, (name', item') :: fields', s, t, hf, hf', h => by
    simp only [dumps_fields, List.cons_append, List.append_assoc] at h
    obtain ⟨hname, hrest⟩ := quote_inj (List.cons.inj (List.cons.inj h).2).2
    obtain ⟨hitem, hrest⟩ := dumps_inj hf.1 hf'.1 (ends_fields fields s) (ends_fields fields' t)
      (List.cons.inj (List.cons.inj hrest).2).2
    obtain ⟨hfields, hst⟩ := fields_inj hf.2 hf'.2 hrest
    exact ⟨by rw [String.toList_inj.mp hname, hitem, hfields], hst⟩

end

theorem dumps_injective {j k : Json} (hj : j.Integral) (hk : k.Integral)
    (h : dumps float_repr j = dumps float_repr k) : j = k := by
  have htext : dumps float_repr j ++ [] = dumps float_repr k ++ [] := congrArg (· ++ []) h
  exact (dumps_inj hj hk ends_nil ends_nil htext).1

/-! ### Sorted keys -/

mutual

/-- `sort_keys=True`. -/
def sort_keys : Json → Json
  | .arr items => .arr (sort_items items)
  | .obj fields => .obj ((sort_fields fields).mergeSort fun a b => a.1 ≤ b.1)
  | value => value

def sort_items : List Json → List Json
  | [] => []
  | item :: items => sort_keys item :: sort_items items

def sort_fields : List (String × Json) → List (String × Json)
  | [] => []
  | (name, item) :: fields => (name, sort_keys item) :: sort_fields fields

end

theorem sort_items_eq (items : List Json) : sort_items items = items.map sort_keys := by
  induction items with
  | nil => rfl
  | cons item items ih => rw [sort_items, ih, List.map_cons]

theorem sort_fields_eq (fields : List (String × Json)) :
    sort_fields fields = fields.map fun field => (field.1, sort_keys field.2) := by
  induction fields with
  | nil => rfl
  | cons field fields ih =>
    obtain ⟨name, item⟩ := field
    rw [sort_fields, ih, List.map_cons]

theorem integralItems_iff (items : List Json) : IntegralItems items ↔ ∀ item ∈ items, Integral item := by
  induction items with
  | nil => exact ⟨fun _ _ => nofun, fun _ => trivial⟩
  | cons item items ih => rw [IntegralItems, ih, List.forall_mem_cons]

theorem integralFields_iff (fields : List (String × Json)) : IntegralFields fields ↔ ∀ field ∈ fields, Integral field.2 := by
  induction fields with
  | nil => exact ⟨fun _ _ => nofun, fun _ => trivial⟩
  | cons field fields ih =>
    obtain ⟨name, item⟩ := field
    rw [IntegralFields, ih, List.forall_mem_cons]

mutual

theorem Integral.sort_keys : ∀ {j : Json}, j.Integral → j.sort_keys.Integral
  | .null, _ | .bool _, _ | .str _, _ => trivial
  | .num _, h => h
  | .arr items, h => IntegralItems.sort_items h
  | .obj fields, h => by
    have hfields : IntegralFields fields := h
    have hsorted := (integralFields_iff _).mp (IntegralFields.sort_fields hfields)
    refine (integralFields_iff _).mpr fun field hfield => hsorted field ?_
    exact (List.mergeSort_perm ..).mem_iff.mp hfield

theorem IntegralItems.sort_items : ∀ {items : List Json}, IntegralItems items → IntegralItems (Json.sort_items items)
  | [], _ => trivial
  | _ :: _, h => ⟨h.1.sort_keys, IntegralItems.sort_items h.2⟩

theorem IntegralFields.sort_fields : ∀ {fields : List (String × Json)}, IntegralFields fields →
    IntegralFields (Json.sort_fields fields)
  | [], _ => trivial
  | (_, _) :: _, h => ⟨h.1.sort_keys, IntegralFields.sort_fields h.2⟩

end

/-- Sorting moves the fields. -/
theorem get?_sort_fields {fields : Fields} (hnodup : (fields.map Prod.fst).Nodup) (name : String) :
    Fields.get? ((sort_fields fields).mergeSort fun a b => a.1 ≤ b.1) name = (fields.get? name).map sort_keys := by
  have hperm := List.mergeSort_perm (sort_fields fields) fun a b => a.1 ≤ b.1
  have hkeys : (sort_fields fields).map Prod.fst = fields.map Prod.fst := by
    rw [sort_fields_eq, List.map_map]
    rfl
  have hsorted : (((sort_fields fields).mergeSort fun a b => a.1 ≤ b.1).map Prod.fst).Nodup := by
    rw [(hperm.map Prod.fst).nodup_iff, hkeys]
    exact hnodup
  ext value
  rw [Fields.get?, Dict.find_eq_some_iff hsorted, hperm.mem_iff, sort_fields_eq, Option.map_eq_some_iff]
  constructor
  · intro hmem
    obtain ⟨⟨k, item⟩, hitem, hpair⟩ := List.mem_map.mp hmem
    obtain ⟨rfl, rfl⟩ := Prod.mk.inj hpair
    exact ⟨item, (Dict.find_eq_some_iff hnodup k item).mpr hitem, rfl⟩
  · rintro ⟨item, hitem, rfl⟩
    exact List.mem_map.mpr ⟨(name, item), (Dict.find_eq_some_iff hnodup name item).mp hitem, rfl⟩

/-- Objects that sort to one agree field by field. -/
theorem get?_of_sort_keys {fields fields' : Fields} (h : sort_keys (.obj fields) = sort_keys (.obj fields'))
    (hnodup : (fields.map Prod.fst).Nodup) (hnodup' : (fields'.map Prod.fst).Nodup) (name : String) :
    (fields.get? name).map sort_keys = (fields'.get? name).map sort_keys := by
  rw [← get?_sort_fields hnodup, ← get?_sort_fields hnodup', Json.obj.inj h]

/-- Arrays that sort to one agree item by item. -/
theorem map_of_sort_keys {items items' : List Json} (h : sort_keys (.arr items) = sort_keys (.arr items')) :
    items.map sort_keys = items'.map sort_keys := by
  rw [← sort_items_eq, ← sort_items_eq, Json.arr.inj h]

/-- **Objects with one sorted text agree field by field.** -/
theorem get?_of_dumps {fields fields' : Fields} (h : dumps float_repr (sort_keys (.obj fields)) =
      dumps float_repr (sort_keys (.obj fields'))) (hfields : Integral (.obj fields)) (hfields' : Integral (.obj fields'))
    (hnodup : (fields.map Prod.fst).Nodup) (hnodup' : (fields'.map Prod.fst).Nodup) (name : String) :
    (fields.get? name).map sort_keys = (fields'.get? name).map sort_keys :=
  get?_of_sort_keys (dumps_injective hfields.sort_keys hfields'.sort_keys h) hnodup hnodup' name

end Json

end LeanFlow.General
