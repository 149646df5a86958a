import Mathlib.Data.List.Basic

/-! UTF-8 as a decoder reads it: a character, or what stands for none.

`next` reads one character, or the longest start of one that the bytes hold; a decoder
that replaces takes each such start for one replacement character. -/
namespace LeanFlow.General.Utf8

abbrev Bytes := List UInt8

inductive Fault where
  | invalid_start_byte
  | invalid_continuation_byte
  | unexpected_end_of_data
deriving DecidableEq

/-- What a first byte calls for: how many more, the range of the next, and its own bits. -/
structure Lead where
  owed : Nat
  low : Nat
  high : Nat
  code : Nat

def lead (b : Nat) : Option Lead :=
  if b < 0x80 then some ⟨0, 0x80, 0xBF, b⟩
  else if b < 0xC2 then none
  else if b ≤ 0xDF then some ⟨1, 0x80, 0xBF, b - 0xC0⟩
  else if b ≤ 0xEF then some ⟨2, if b = 0xE0 then 0xA0 else 0x80, if b = 0xED then 0x9F else 0xBF, b - 0xE0⟩
  else if b ≤ 0xF4 then some ⟨3, if b = 0xF0 then 0x90 else 0x80, if b = 0xF4 then 0x8F else 0xBF, b - 0xF0⟩
  else none

/-- Of the bytes still owed: the code they complete, and how many there are. -/
def more : Nat → Nat → Nat → Nat → Bytes → Except Fault Nat × Nat
  | 0, _, _, code, _ => (.ok code, 0)
  | _ + 1, _, _, _, [] => (.error .unexpected_end_of_data, 0)
  | n + 1, low, high, code, b :: rest =>
    if low ≤ b.toNat ∧ b.toNat ≤ high then
      ((more n 0x80 0xBF (code * 64 + (b.toNat - 0x80)) rest).1, (more n 0x80 0xBF (code * 64 + (b.toNat - 0x80)) rest).2 + 1)
    else (.error .invalid_continuation_byte, 0)

/-- The first character, or why there is none, and how many bytes that takes. -/
def next : Bytes → Except Fault Nat × Nat
  | [] => (.error .unexpected_end_of_data, 0)
  | b :: rest =>
    match lead b.toNat with
    | none => (.error .invalid_start_byte, 1)
    | some l => ((more l.owed l.low l.high l.code rest).1, (more l.owed l.low l.high l.code rest).2 + 1)

def encode (text : List Char) : Bytes := text.flatMap String.utf8EncodeChar

/-! ### Characters -/

theorem more_length (n low high code : Nat) (rest : Bytes) : (more n low high code rest).2 ≤ rest.length := by
  fun_induction more n low high code rest with
  | case1 => exact Nat.zero_le _
  | case2 => exact Nat.zero_le _
  | case3 n low high code b rest h ih => exact Nat.succ_le_succ ih
  | case4 => exact Nat.zero_le _

theorem next_pos (b : UInt8) (rest : Bytes) : 0 < (next (b :: rest)).2 := by
  rw [next]
  split
  · exact Nat.one_pos
  · exact Nat.succ_pos _

theorem next_length (data : Bytes) : (next data).2 ≤ data.length := by
  cases data with
  | nil => exact Nat.le_refl 0
  | cons b rest =>
    rw [next]
    split
    · exact Nat.succ_le_succ (Nat.zero_le _)
    · exact Nat.succ_le_succ (more_length ..)

theorem toNat_valid (c : Char) : c.toNat < 0xD800 ∨ 0xDFFF < c.toNat ∧ c.toNat < 0x110000 := c.valid

/-- A byte written for a number below 256. -/
theorem toNat_byte {n : Nat} (h : n < 256) : (UInt8.ofNat n).toNat = n := by
  rw [UInt8.toNat_ofNat', Nat.mod_eq_of_lt h]

theorem lead_one {b : Nat} (h : b < 0x80) : lead b = some ⟨0, 0x80, 0xBF, b⟩ := if_pos h

theorem lead_two {b : Nat} (h : 0xC2 ≤ b) (h' : b ≤ 0xDF) : lead b = some ⟨1, 0x80, 0xBF, b - 0xC0⟩ := by
  rw [lead, if_neg (by omega), if_neg (by omega), if_pos h']

theorem lead_three {b : Nat} (h : 0xE0 ≤ b) (h' : b ≤ 0xEF) :
    lead b = some ⟨2, if b = 0xE0 then 0xA0 else 0x80, if b = 0xED then 0x9F else 0xBF, b - 0xE0⟩ := by
  rw [lead, if_neg (by omega), if_neg (by omega), if_neg (by omega), if_pos h']

theorem lead_four {b : Nat} (h : 0xF0 ≤ b) (h' : b ≤ 0xF4) :
    lead b = some ⟨3, if b = 0xF0 then 0x90 else 0x80, if b = 0xF4 then 0x8F else 0xBF, b - 0xF0⟩ := by
  rw [lead, if_neg (by omega), if_neg (by omega), if_neg (by omega), if_neg (by omega), if_pos h']

theorem more_zero (low high code : Nat) (rest : Bytes) : more 0 low high code rest = (.ok code, 0) := by
  cases rest <;> rfl

theorem more_cons {low high : Nat} {b : UInt8} (h : low ≤ b.toNat ∧ b.toNat ≤ high) (n code : Nat) (rest : Bytes) :
    more (n + 1) low high code (b :: rest) =
      ((more n 0x80 0xBF (code * 64 + (b.toNat - 0x80)) rest).1, (more n 0x80 0xBF (code * 64 + (b.toNat - 0x80)) rest).2 + 1) := by
  rw [more, if_pos h]

/-- A byte that goes on with a character. -/
def Continues (b : UInt8) : Prop := 0x80 ≤ b.toNat ∧ b.toNat ≤ 0xBF

theorem next_one {b : UInt8} (h : b.toNat < 0x80) (rest : Bytes) : next (b :: rest) = (.ok b.toNat, 1) := by
  rw [next, lead_one h]
  simp only [more_zero]

theorem next_two {b c : UInt8} (hb : 0xC2 ≤ b.toNat ∧ b.toNat ≤ 0xDF) (hc : Continues c) (rest : Bytes) :
    next (b :: c :: rest) = (.ok ((b.toNat - 0xC0) * 64 + (c.toNat - 0x80)), 2) := by
  rw [next, lead_two hb.1 hb.2]
  simp only [more_cons hc, more_zero]

theorem next_three {b c d : UInt8} (hb : 0xE0 ≤ b.toNat ∧ b.toNat ≤ 0xEF)
    (hc : (if b.toNat = 0xE0 then 0xA0 else 0x80) ≤ c.toNat ∧ c.toNat ≤ if b.toNat = 0xED then 0x9F else 0xBF)
    (hd : Continues d) (rest : Bytes) :
    next (b :: c :: d :: rest) = (.ok (((b.toNat - 0xE0) * 64 + (c.toNat - 0x80)) * 64 + (d.toNat - 0x80)), 3) := by
  rw [next, lead_three hb.1 hb.2]
  simp only [more_cons hc, more_cons hd, more_zero]

theorem next_four {b c d e : UInt8} (hb : 0xF0 ≤ b.toNat ∧ b.toNat ≤ 0xF4)
    (hc : (if b.toNat = 0xF0 then 0x90 else 0x80) ≤ c.toNat ∧ c.toNat ≤ if b.toNat = 0xF4 then 0x8F else 0xBF)
    (hd : Continues d) (he : Continues e) (rest : Bytes) :
    next (b :: c :: d :: e :: rest) =
      (.ok ((((b.toNat - 0xF0) * 64 + (c.toNat - 0x80)) * 64 + (d.toNat - 0x80)) * 64 + (e.toNat - 0x80)), 4) := by
  rw [next, lead_four hb.1 hb.2]
  simp only [more_cons hc, more_cons hd, more_cons he, more_zero]

/-- The start of an encoded character is read as that character. -/
theorem next_encodeChar (c : Char) (rest : Bytes) :
    next (String.utf8EncodeChar c ++ rest) = (.ok c.toNat, (String.utf8EncodeChar c).length) := by
  have hvalid := toNat_valid c
  have hv : c.val.toNat = c.toNat := rfl
  have hcontinues (n : Nat) : Continues (UInt8.ofNat (n % 64 + 0x80)) := by
    rw [Continues, toNat_byte (by omega)]
    omega
  unfold String.utf8EncodeChar
  simp only [hv]
  generalize c.toNat = v at hvalid ⊢
  split
  · have hone : (UInt8.ofNat v).toNat = v := toNat_byte (by omega)
    rw [List.singleton_append, next_one (by omega), hone]
    rfl
  · split
    · have hone : (UInt8.ofNat (v / 64 % 32 + 192)).toNat = v / 64 % 32 + 192 := toNat_byte (by omega)
      rw [List.cons_append, List.singleton_append, next_two (by omega) (hcontinues _), hone, toNat_byte (by omega)]
      refine Prod.ext (congrArg Except.ok ?_) rfl
      show _ = v
      omega
    · split
      · have hone : (UInt8.ofNat (v / 4096 % 16 + 224)).toNat = v / 4096 % 16 + 224 := toNat_byte (by omega)
        have htwo : (UInt8.ofNat (v / 64 % 64 + 128)).toNat = v / 64 % 64 + 128 := toNat_byte (by omega)
        rw [List.cons_append, List.cons_append, List.singleton_append,
          next_three (by omega) (by rw [hone, htwo]; constructor <;> split <;> omega) (hcontinues _), hone, htwo, toNat_byte (by omega)]
        refine Prod.ext (congrArg Except.ok ?_) rfl
        show _ = v
        omega
      · have hone : (UInt8.ofNat (v / 262144 % 8 + 240)).toNat = v / 262144 % 8 + 240 := toNat_byte (by omega)
        have htwo : (UInt8.ofNat (v / 4096 % 64 + 128)).toNat = v / 4096 % 64 + 128 := toNat_byte (by omega)
        rw [List.cons_append, List.cons_append, List.cons_append, List.singleton_append,
          next_four (by omega) (by rw [hone, htwo]; constructor <;> split <;> omega) (hcontinues _) (hcontinues _), hone, htwo,
          toNat_byte (by omega), toNat_byte (by omega)]
        refine Prod.ext (congrArg Except.ok ?_) rfl
        show _ = v
        omega

theorem more_ok {n low high code size : Nat} {rest : Bytes} {found : Nat} (h : more (n + 1) low high code rest = (.ok found, size)) :
    ∃ b more_rest more_size, rest = b :: more_rest ∧ (low ≤ b.toNat ∧ b.toNat ≤ high) ∧ size = more_size + 1 ∧
      more n 0x80 0xBF (code * 64 + (b.toNat - 0x80)) more_rest = (.ok found, more_size) := by
  cases rest with
  | nil => exact absurd (Prod.ext_iff.mp h).1 (fun h => nomatch h)
  | cons b rest =>
    rw [more] at h
    split at h
    · rename_i hrange
      obtain ⟨hfound, hsize⟩ := Prod.ext_iff.mp h
      exact ⟨b, rest, _, rfl, hrange, hsize.symm, Prod.ext hfound rfl⟩
    · exact absurd (Prod.ext_iff.mp h).1 (fun h => nomatch h)

theorem toNat_ofNat {n : Nat} (h : n < 0xD800 ∨ 0xDFFF < n ∧ n < 0x110000) : (Char.ofNat n).toNat = n := by
  have hvalid : n.isValidChar := h
  rw [Char.ofNat, dif_pos hvalid]
  rfl

theorem ofNat_eq {n : Nat} {b : UInt8} (h : b.toNat = n) : UInt8.ofNat n = b := by
  rw [← h, UInt8.ofNat_toNat]

/-- The number of a character that is encoded as given bytes. -/
theorem encodeChar_ofNat {n : Nat} (h : n < 0xD800 ∨ 0xDFFF < n ∧ n < 0x110000) :
    String.utf8EncodeChar (Char.ofNat n) =
      if n ≤ 0x7F then [UInt8.ofNat n]
      else if n ≤ 0x7FF then [UInt8.ofNat (n / 64 % 32 + 192), UInt8.ofNat (n % 64 + 128)]
      else if n ≤ 0xFFFF then [UInt8.ofNat (n / 4096 % 16 + 224), UInt8.ofNat (n / 64 % 64 + 128), UInt8.ofNat (n % 64 + 128)]
      else [UInt8.ofNat (n / 262144 % 8 + 240), UInt8.ofNat (n / 4096 % 64 + 128), UInt8.ofNat (n / 64 % 64 + 128),
        UInt8.ofNat (n % 64 + 128)] := by
  have hv : (Char.ofNat n).val.toNat = n := toNat_ofNat h
  unfold String.utf8EncodeChar
  simp only [hv]

/-- What is read as a character starts with it, encoded. -/
theorem next_ok {data : Bytes} {code size : Nat} (h : next data = (.ok code, size)) :
    ∃ c rest, code = Char.toNat c ∧ data = String.utf8EncodeChar c ++ rest ∧ size = (String.utf8EncodeChar c).length := by
  suffices hvalid : ∃ rest, (code < 0xD800 ∨ 0xDFFF < code ∧ code < 0x110000) ∧
      data = String.utf8EncodeChar (Char.ofNat code) ++ rest ∧ size = (String.utf8EncodeChar (Char.ofNat code)).length by
    obtain ⟨rest, hcode, hdata⟩ := hvalid
    exact ⟨Char.ofNat code, rest, (toNat_ofNat hcode).symm, hdata⟩
  cases data with
  | nil => exact absurd (Prod.ext_iff.mp h).1 (fun h => nomatch h)
  | cons b rest =>
    rw [next] at h
    split at h
    · exact absurd (Prod.ext_iff.mp h).1 (fun h => nomatch h)
    · rename_i l hl
      obtain ⟨hcode, rfl⟩ := Prod.ext_iff.mp h
      have hmore : more l.owed l.low l.high l.code rest = (.ok code, (more l.owed l.low l.high l.code rest).2) := Prod.ext hcode rfl
      clear h hcode
      generalize (more l.owed l.low l.high l.code rest).2 = size at hmore ⊢
      rw [lead] at hl
      split at hl
      · cases hl
        simp only at hmore
        rw [more_zero] at hmore
        obtain ⟨hcode, rfl⟩ := Prod.ext_iff.mp hmore
        obtain rfl := Except.ok.inj hcode
        refine ⟨rest, by omega, ?_⟩
        rw [encodeChar_ofNat (by omega), if_pos (by omega), UInt8.ofNat_toNat]
        exact ⟨rfl, rfl⟩
      split at hl
      · exact absurd hl (fun h => nomatch h)
      split at hl
      · cases hl
        simp only at hmore
        obtain ⟨c, rest, size, rfl, hc, rfl, hfirst⟩ := more_ok hmore
        rw [more_zero] at hfirst
        obtain ⟨hcode, rfl⟩ := Prod.ext_iff.mp hfirst
        obtain rfl := Except.ok.inj hcode
        simp only at hc ⊢
        refine ⟨rest, by omega, ?_⟩
        rw [encodeChar_ofNat (by omega), if_neg (by omega), if_pos (by omega), @ofNat_eq _ b (by omega), @ofNat_eq _ c (by omega)]
        exact ⟨rfl, rfl⟩
      split at hl
      · cases hl
        simp only at hmore
        obtain ⟨c, rest, size, rfl, hc, rfl, hfirst⟩ := more_ok hmore
        obtain ⟨d, rest, size, rfl, hd, rfl, hsecond⟩ := more_ok hfirst
        rw [more_zero] at hsecond
        obtain ⟨hcode, rfl⟩ := Prod.ext_iff.mp hsecond
        obtain rfl := Except.ok.inj hcode
        simp only at hc hd ⊢
        have hlow : b.toNat = 0xE0 → 0xA0 ≤ c.toNat := fun hb => by simpa [hb] using hc.1
        have hhigh : b.toNat = 0xED → c.toNat ≤ 0x9F := fun hb => by simpa [hb] using hc.2
        have hrange : 0x80 ≤ c.toNat ∧ c.toNat ≤ 0xBF := by split at hc <;> split at hc <;> omega
        refine ⟨rest, by omega, ?_⟩
        rw [encodeChar_ofNat (by omega), if_neg (by omega), if_neg (by omega), if_pos (by omega), @ofNat_eq _ b (by omega),
          @ofNat_eq _ c (by omega), @ofNat_eq _ d (by omega)]
        exact ⟨rfl, rfl⟩
      split at hl
      · cases hl
        simp only at hmore
        obtain ⟨c, rest, size, rfl, hc, rfl, hfirst⟩ := more_ok hmore
        obtain ⟨d, rest, size, rfl, hd, rfl, hsecond⟩ := more_ok hfirst
        obtain ⟨e, rest, size, rfl, he, rfl, hthird⟩ := more_ok hsecond
        rw [more_zero] at hthird
        obtain ⟨hcode, rfl⟩ := Prod.ext_iff.mp hthird
        obtain rfl := Except.ok.inj hcode
        simp only at hc hd he ⊢
        have hlow : b.toNat = 0xF0 → 0x90 ≤ c.toNat := fun hb => by simpa [hb] using hc.1
        have hhigh : b.toNat = 0xF4 → c.toNat ≤ 0x8F := fun hb => by simpa [hb] using hc.2
        have hrange : 0x80 ≤ c.toNat ∧ c.toNat ≤ 0xBF := by split at hc <;> split at hc <;> omega
        refine ⟨rest, by omega, ?_⟩
        rw [encodeChar_ofNat (by omega), if_neg (by omega), if_neg (by omega), if_neg (by omega), @ofNat_eq _ b (by omega),
          @ofNat_eq _ c (by omega), @ofNat_eq _ d (by omega), @ofNat_eq _ e (by omega)]
        exact ⟨rfl, rfl⟩
      · exact absurd hl (fun h => nomatch h)

/-! ### Bytes that go on -/

/-- The first byte of a character says how many go on with it. -/
theorem encodeChar_cons (c : Char) : ∃ b rest l, String.utf8EncodeChar c = b :: rest ∧ lead b.toNat = some l ∧ l.owed = rest.length := by
  have hvalid := toNat_valid c
  have hv : c.val.toNat = c.toNat := rfl
  unfold String.utf8EncodeChar
  simp only [hv]
  generalize c.toNat = v at hvalid ⊢
  split
  · exact ⟨_, _, _, rfl, lead_one (by rw [toNat_byte (by omega)]; omega), rfl⟩
  split
  · exact ⟨_, _, _, rfl, lead_two (by rw [toNat_byte (by omega)]; omega) (by rw [toNat_byte (by omega)]; omega), rfl⟩
  split
  · exact ⟨_, _, _, rfl, lead_three (by rw [toNat_byte (by omega)]; omega) (by rw [toNat_byte (by omega)]; omega), rfl⟩
  · exact ⟨_, _, _, rfl, lead_four (by rw [toNat_byte (by omega)]; omega) (by rw [toNat_byte (by omega)]; omega), rfl⟩

theorem lead_continues {b : UInt8} (h : Continues b) : lead b.toNat = none := by
  rw [lead, if_neg (Nat.not_lt.mpr h.1), if_pos (Nat.lt_of_le_of_lt h.2 (by decide))]

theorem lead_range {b : Nat} {l : Lead} (h : lead b = some l) : 0x80 ≤ l.low ∧ l.high ≤ 0xBF := by
  rw [lead] at h
  split at h
  · cases h
    simp
  split at h
  · cases h
  split at h
  · cases h
    simp
  split at h
  · cases h
    constructor <;> simp only <;> split <;> omega
  split at h
  · cases h
    constructor <;> simp only <;> split <;> omega
  · cases h

theorem more_continues {n low high code : Nat} (hlow : 0x80 ≤ low) (hhigh : high ≤ 0xBF) (rest : Bytes) :
    ∀ b ∈ rest.take (more n low high code rest).2, Continues b := by
  fun_induction more n low high code rest with
  | case1 => simp
  | case2 => simp
  | case3 n low high code b rest h ih =>
    rw [List.take_succ_cons]
    exact List.forall_mem_cons.mpr ⟨⟨Nat.le_trans hlow h.1, Nat.le_trans h.2 hhigh⟩, ih (Nat.le_refl _) (Nat.le_refl _)⟩
  | case4 => simp

/-- Only the first byte of what is read may start a character. -/
theorem next_continues {b : UInt8} {rest : Bytes} : ∀ d ∈ rest.take ((next (b :: rest)).2 - 1), Continues d := by
  rw [next]
  split
  · simp
  · rename_i l hl
    have hrange := lead_range hl
    exact more_continues hrange.1 hrange.2 rest

theorem encodeChar_continues {c : Char} {b : UInt8} {rest : Bytes} (h : String.utf8EncodeChar c = b :: rest) :
    ¬Continues b ∧ ∀ d ∈ rest, Continues d := by
  obtain ⟨b', rest', l, hcons, hlead, -⟩ := encodeChar_cons c
  obtain ⟨rfl, rfl⟩ := List.cons.inj (h.symm.trans hcons)
  refine ⟨fun hcontinues => ?_, fun d hd => ?_⟩
  · rw [lead_continues hcontinues] at hlead
    cases hlead
  · have hnext := next_encodeChar c []
    rw [List.append_nil, h] at hnext
    have hmem := @next_continues b rest d
    rw [hnext] at hmem
    exact hmem (by simpa using hd)

theorem more_end {n low high code : Nat} {rest : Bytes}
    (h : (more n low high code rest).1 = .error .unexpected_end_of_data) : (more n low high code rest).2 = rest.length := by
  fun_induction more n low high code rest with
  | case1 => cases h
  | case2 => rfl
  | case3 n low high code b rest hrange ih => exact congrArg (· + 1) (ih h)
  | case4 => cases h

/-- The bytes end within a character only if all of them are its start. -/
theorem next_end {data : Bytes} (h : (next data).1 = .error .unexpected_end_of_data) : (next data).2 = data.length := by
  cases data with
  | nil => rfl
  | cons b rest =>
    rw [next] at h ⊢
    split at h
    · cases h
    · exact congrArg (· + 1) (more_end h)

/-! ### Decoding -/

def replacement : Char := '\uFFFD'

def character : Except Fault Nat → Char
  | .ok code => Char.ofNat code
  | .error _ => replacement

/-- `data.decode("utf-8", errors="replace")` -/
def decode : Bytes → List Char
  | [] => []
  | b :: rest => character (next (b :: rest)).1 :: decode (rest.drop ((next (b :: rest)).2 - 1))
termination_by data => data.length
decreasing_by
  rw [List.length_drop, List.length_cons]
  omega

/-- `data.decode("utf-8")`, up to the first fault. -/
def decode_strict : Bytes → Except Fault (List Char)
  | [] => .ok []
  | b :: rest =>
    match (next (b :: rest)).1 with
    | .ok code => (decode_strict (rest.drop ((next (b :: rest)).2 - 1))).map (Char.ofNat code :: ·)
    | .error fault => .error fault
termination_by data => data.length
decreasing_by
  rw [List.length_drop, List.length_cons]
  omega

@[simp] theorem decode_nil : decode [] = [] := by rw [decode]

@[simp] theorem decode_strict_nil : decode_strict [] = .ok [] := by rw [decode_strict]

theorem drop_next (b : UInt8) (rest : Bytes) : rest.drop ((next (b :: rest)).2 - 1) = (b :: rest).drop (next (b :: rest)).2 := by
  obtain ⟨n, hn⟩ := Nat.exists_eq_succ_of_ne_zero (Nat.ne_of_gt (next_pos b rest))
  rw [hn]
  rfl

@[simp] theorem decode_encodeChar (c : Char) (rest : Bytes) : decode (String.utf8EncodeChar c ++ rest) = c :: decode rest := by
  have hnext := next_encodeChar c rest
  obtain ⟨b, more, -, hcons, -⟩ := encodeChar_cons c
  rw [hcons, List.cons_append] at hnext ⊢
  rw [decode, drop_next, hnext, ← List.cons_append, List.drop_left, character, Char.ofNat_toNat]

theorem decode_strict_encodeChar (c : Char) (rest : Bytes) :
    decode_strict (String.utf8EncodeChar c ++ rest) = (decode_strict rest).map (c :: ·) := by
  have hnext := next_encodeChar c rest
  obtain ⟨b, more, -, hcons, -⟩ := encodeChar_cons c
  rw [hcons, List.cons_append] at hnext ⊢
  rw [decode_strict, drop_next, hnext]
  simp only
  rw [← List.cons_append, List.drop_left, Char.ofNat_toNat]

theorem decode_strict_fault {b : UInt8} {rest : Bytes} {fault : Fault} (h : (next (b :: rest)).1 = .error fault) :
    decode_strict (b :: rest) = .error fault := by
  rw [decode_strict, h]

/-- The strict decoder takes encoded text only. -/
theorem decode_strict_eq_ok {data : Bytes} {text : List Char} : decode_strict data = .ok text ↔ data = encode text := by
  constructor
  · induction text generalizing data with
    | nil =>
      intro h
      cases data with
      | nil => rfl
      | cons b rest =>
        rw [decode_strict] at h
        split at h
        · cases htail : decode_strict (rest.drop ((next (b :: rest)).2 - 1)) with
          | ok text =>
            rw [htail] at h
            cases h
          | error fault =>
            rw [htail] at h
            cases h
        · cases h
    | cons c text ih =>
      intro h
      cases data with
      | nil =>
        rw [decode_strict_nil] at h
        cases h
      | cons b rest =>
        cases hnext : (next (b :: rest)).1 with
        | error fault =>
          rw [decode_strict_fault hnext] at h
          cases h
        | ok code =>
          obtain ⟨d, tail, -, hdata, -⟩ := next_ok (Prod.ext hnext rfl)
          rw [hdata, decode_strict_encodeChar] at h
          cases htail : decode_strict tail with
          | error fault =>
            rw [htail] at h
            cases h
          | ok more =>
            rw [htail] at h
            obtain ⟨rfl, rfl⟩ := List.cons.inj (Except.ok.inj h)
            rw [hdata, ih htail]
            rfl
  · rintro rfl
    induction text with
    | nil => exact decode_strict_nil
    | cons c text ih =>
      rw [encode, List.flatMap_cons, decode_strict_encodeChar, ← encode, ih]
      rfl

theorem decode_encode (text : List Char) (rest : Bytes) : decode (encode text ++ rest) = text ++ decode rest := by
  induction text with
  | nil => rfl
  | cons c text ih =>
    rw [encode, List.flatMap_cons, List.append_assoc, decode_encodeChar, List.cons_append, ← encode, ih]

/-- A start of bytes that decodes without a replacement is what it decodes to, encoded. -/
theorem encode_take {n : Nat} {data : Bytes} (h : replacement ∉ (decode data).take n) :
    ∃ rest, data = encode ((decode data).take n) ++ rest := by
  induction n generalizing data with
  | zero => exact ⟨data, rfl⟩
  | succ n ih =>
    cases data with
    | nil => exact ⟨[], by simp [encode]⟩
    | cons b more =>
      cases hnext : next (b :: more) with
      | mk result size =>
        cases result with
        | error fault =>
          rw [decode, hnext, List.take_succ_cons] at h
          exact absurd List.mem_cons_self h
        | ok code =>
          obtain ⟨c, rest, -, hdata, -⟩ := next_ok hnext
          rw [hdata, decode_encodeChar, List.take_succ_cons] at h ⊢
          obtain ⟨tail, htail⟩ := ih fun hmem => h (List.mem_cons_of_mem c hmem)
          refine ⟨tail, ?_⟩
          rw [encode, List.flatMap_cons, List.append_assoc, ← encode, ← htail]

theorem decode_continues {b : UInt8} (h : Continues b) (rest : Bytes) : decode (b :: rest) = replacement :: decode rest := by
  rw [decode, next, lead_continues h]
  rfl

theorem length_decode_drop {n : Nat} {data : Bytes} (h : ∀ b ∈ data.take n, Continues b) :
    (decode (data.drop n)).length ≤ (decode data).length := by
  induction n generalizing data with
  | zero => exact Nat.le_refl _
  | succ n ih =>
    cases data with
    | nil => exact Nat.le_refl _
    | cons b rest =>
      obtain ⟨hb, hrest⟩ := List.forall_mem_cons.mp h
      rw [List.drop_succ_cons, decode_continues hb]
      exact Nat.le_succ_of_le (ih hrest)

/-- A byte that starts no character adds one replacement at most. -/
theorem length_decode_cons (b : UInt8) (rest : Bytes) : (decode (b :: rest)).length ≤ (decode rest).length + 1 := by
  rw [decode, List.length_cons]
  exact Nat.succ_le_succ (length_decode_drop next_continues)

/-! ### Cuts at an ASCII byte -/

theorem more_ascii {b : UInt8} (hb : b.toNat < 0x80) {n low high : Nat} (hlow : 0x80 ≤ low) (code : Nat) (a x : Bytes) :
    character (more n low high code (a ++ b :: x)).1 = character (more n low high code a).1 ∧
      (more n low high code (a ++ b :: x)).2 = (more n low high code a).2 := by
  induction a generalizing n low high code with
  | nil =>
    cases n with
    | zero => exact ⟨rfl, rfl⟩
    | succ n =>
      have hout : ¬(low ≤ b.toNat ∧ b.toNat ≤ high) := fun h => absurd h.1 (by omega)
      have hmore : more (n + 1) low high code (b :: x) = (.error .invalid_continuation_byte, 0) := if_neg hout
      rw [List.nil_append, hmore]
      exact ⟨rfl, rfl⟩
  | cons c a ih =>
    cases n with
    | zero => exact ⟨rfl, rfl⟩
    | succ n =>
      rw [List.cons_append, more, more]
      split
      · obtain ⟨hcharacter, hsize⟩ := @ih n 0x80 0xBF (Nat.le_refl _) (code * 64 + (c.toNat - 0x80))
        exact ⟨hcharacter, congrArg (· + 1) hsize⟩
      · exact ⟨rfl, rfl⟩

theorem next_ascii {b : UInt8} (hb : b.toNat < 0x80) (c : UInt8) (a x : Bytes) :
    character (next (c :: a ++ b :: x)).1 = character (next (c :: a)).1 ∧ (next (c :: a ++ b :: x)).2 = (next (c :: a)).2 := by
  rw [List.cons_append, next, next]
  cases hl : lead c.toNat with
  | none => exact ⟨rfl, rfl⟩
  | some l =>
    obtain ⟨hcharacter, hsize⟩ := more_ascii hb (lead_range hl).1 l.code a x
    exact ⟨hcharacter, congrArg (· + 1) hsize⟩

/-- No character lies across an ASCII byte. -/
theorem decode_ascii {b : UInt8} (hb : b.toNat < 0x80) (a x : Bytes) :
    decode (a ++ b :: x) = decode a ++ Char.ofNat b.toNat :: decode x := by
  induction hn : a.length using Nat.strongRecOn generalizing a with
  | ind n ih =>
    cases a with
    | nil =>
      rw [List.nil_append, decode_nil, List.nil_append, decode, next_one hb]
      rfl
    | cons c a =>
      obtain ⟨hcharacter, hsize⟩ := next_ascii hb c a x
      have hle := next_length (c :: a)
      have hpos := next_pos c a
      rw [List.length_cons] at hle
      rw [List.cons_append] at hcharacter hsize
      rw [List.cons_append, decode, decode, hcharacter, hsize, List.drop_append_of_le_length (by omega),
        ih _ (by rw [List.length_drop, ← hn, List.length_cons]; omega) _ rfl]
      rfl

theorem encodeChar_ascii {c : Char} (hc : c.toNat < 0x80) : String.utf8EncodeChar c = [UInt8.ofNat c.toNat] := by
  have hv : c.val.toNat = c.toNat := rfl
  unfold String.utf8EncodeChar
  simp only [hv]
  rw [if_pos (by omega)]

/-- An ASCII character comes of its byte only. -/
theorem mem_decode_ascii {c : Char} (hc : c.toNat < 0x80) {data : Bytes} (h : c ∈ decode data) : UInt8.ofNat c.toNat ∈ data := by
  induction hn : data.length using Nat.strongRecOn generalizing data with
  | ind n ih =>
    cases data with
    | nil =>
      rw [decode_nil] at h
      exact absurd h List.not_mem_nil
    | cons b rest =>
      rw [decode] at h
      rcases List.mem_cons.mp h with hfirst | hrest
      · cases hnext : (next (b :: rest)).1 with
        | ok code =>
          obtain ⟨d, tail, rfl, hdata, -⟩ := next_ok (Prod.ext hnext rfl)
          rw [hnext, character, Char.ofNat_toNat] at hfirst
          rw [hdata, ← hfirst, encodeChar_ascii hc]
          exact List.mem_append_left _ (List.mem_singleton_self _)
        | error fault =>
          rw [hnext] at hfirst
          rw [show c = replacement from hfirst] at hc
          exact absurd hc (by decide)
      · refine List.mem_cons_of_mem b (List.mem_of_mem_drop (ih _ ?_ hrest rfl))
        rw [List.length_drop, ← hn, List.length_cons]
        omega

end LeanFlow.General.Utf8
