import LeanFlow.Paging.Window
import Mathlib.Data.Nat.Find

/-! What the pages of a file are: its bytes once each, no character in two. -/
namespace LeanFlow.Paging
open General.Utf8

/-! ### Cuts between characters -/

/-- No character of the data lies on both sides of `i`. -/
def Boundary (data : Bytes) (i : Nat) : Prop :=
  ∀ before c after, data = before ++ (String.utf8EncodeChar c ++ after) →
    i ≤ before.length ∨ before.length + (String.utf8EncodeChar c).length ≤ i

theorem boundary_zero (data : Bytes) : Boundary data 0 := fun _ _ _ _ => .inl (Nat.zero_le _)

theorem boundary_length (data : Bytes) : Boundary data data.length := by
  rintro before c after rfl
  refine .inr ?_
  rw [List.length_append, List.length_append]
  omega

/-- A cut of what lies behind a cut is one of the whole. -/
theorem boundary_add {data : Bytes} {i j : Nat} (h : Boundary data i) (hi : i ≤ data.length) (hj : Boundary (data.drop i) j) :
    Boundary data (i + j) := by
  intro before c after heq
  rcases h before c after heq with hle | hle
  · have hdrop : data.drop i = before.drop i ++ (String.utf8EncodeChar c ++ after) := by
      rw [heq, List.drop_append_of_le_length hle]
    have := hj _ _ _ hdrop
    rw [List.length_drop] at this
    omega
  · exact .inr (by omega)

theorem boundary_encodeChar (c : Char) (rest : Bytes) :
    Boundary (String.utf8EncodeChar c ++ rest) (String.utf8EncodeChar c).length := by
  intro before d after heq
  by_cases hle : (String.utf8EncodeChar c).length ≤ before.length
  · exact .inl hle
  · refine .inr ?_
    obtain ⟨b, more, -, hcons, -⟩ := encodeChar_cons c
    cases before with
    | nil =>
      have hnext := next_encodeChar c rest
      rw [heq, List.nil_append, next_encodeChar] at hnext
      rw [List.length_nil, Nat.zero_add]
      exact Nat.le_of_eq (Prod.ext_iff.mp hnext).2
    | cons first before =>
      -- the other character begins on a byte that goes on with this one
      obtain ⟨lead, others, -, hother, -⟩ := encodeChar_cons d
      rw [hcons, List.cons_append, hother] at heq
      rw [hcons, List.length_cons, List.length_cons] at hle
      have hlt : before.length < more.length := by omega
      have hat : (more ++ rest)[before.length]? = some lead := by
        rw [(List.cons.inj heq).2]
        exact (List.getElem?_append_right (Nat.le_refl _)).trans (by simp)
      rw [List.getElem?_append_left hlt] at hat
      have hmem := List.mem_of_getElem? hat
      exact absurd ((encodeChar_continues hcons).2 lead hmem) (encodeChar_continues hother).1

/-- A single byte that starts no character. -/
theorem boundary_fault {b : UInt8} {rest : Bytes} {fault : Fault} (h : (next (b :: rest)).1 = .error fault) : Boundary (b :: rest) 1 := by
  intro before c after heq
  cases before with
  | nil =>
    rw [heq, List.nil_append, next_encodeChar] at h
    cases h
  | cons first before => exact .inl (Nat.succ_pos _)

/-! ### One step of the walk -/

theorem sequence_size_eq {b : UInt8} {l : Lead} (h : lead b.toNat = some l) : sequence_size b = l.owed + 1 := by
  have hle (m n : UInt8) : m ≤ n ↔ m.toNat ≤ n.toNat := UInt8.le_iff_toNat_le
  rw [sequence_size]
  simp only [hle, UInt8.reduceToNat]
  rw [lead] at h
  split at h
  · cases h
    rw [if_neg (by omega), if_neg (by omega), if_neg (by omega)]
  split at h
  · cases h
  split at h
  · cases h
    rw [if_pos (by omega)]
  split at h
  · cases h
    rw [if_neg (by omega), if_pos (by omega)]
  split at h
  · cases h
    rw [if_neg (by omega), if_neg (by omega), if_pos (by omega)]
  · cases h

theorem sequence_size_encodeChar {c : Char} {b : UInt8} {rest : Bytes} (h : String.utf8EncodeChar c = b :: rest) :
    sequence_size b = rest.length + 1 := by
  obtain ⟨b', rest', l, hcons, hlead, howed⟩ := encodeChar_cons c
  obtain ⟨rfl, rfl⟩ := List.cons.inj (h.symm.trans hcons)
  rw [sequence_size_eq hlead, howed]

theorem sequence_size_le (b : UInt8) : sequence_size b ≤ 4 := by
  unfold sequence_size
  split
  · decide
  split
  · decide
  split <;> decide

/-- What the walk makes of the bytes from an index on: it takes a character whole, or one
byte that starts none, or the start of one that the data end in. -/
inductive Step (data : Bytes) (index : Nat) : Nat → Prop where
  | char {c : Char} {rest : Bytes} (h : data.drop index = String.utf8EncodeChar c ++ rest) :
      Step data index (index + (String.utf8EncodeChar c).length)
  | byte {fault : Fault} (h : (next (data.drop index)).1 = .error fault) : Step data index (index + 1)
  | rest (h : (next (data.drop index)).1 = .error .unexpected_end_of_data) (hshort : data.length ≤ index + 4) :
      Step data index data.length

theorem walk_stop {data : Bytes} {limit_chars index chars : Nat} (h : ¬(index < data.length ∧ chars < limit_chars)) :
    walk data limit_chars index chars = index := by rw [walk, dif_neg h]

theorem walk_step {data : Bytes} {limit_chars index chars : Nat} (hindex : index < data.length) (hchars : chars < limit_chars) :
    ∃ stop, Step data index stop ∧
      (walk data limit_chars index chars = walk data limit_chars stop (chars + 1) ∨
        stop = data.length ∧ walk data limit_chars index chars = data.length) := by
  have hcons : data.drop index = data[index] :: data.drop (index + 1) := List.drop_eq_getElem_cons hindex
  rw [walk, dif_pos ⟨hindex, hchars⟩]
  simp only
  cases hnext : (next (data.drop index)).1 with
  | ok code =>
    obtain ⟨c, rest, -, hdata, -⟩ := next_ok (Prod.ext hnext rfl)
    refine ⟨_, .char hdata, .inl ?_⟩
    obtain ⟨b, more, -, hchar, -⟩ := encodeChar_cons c
    have hsize : sequence_size data[index] = (String.utf8EncodeChar c).length := by
      rw [hcons, hchar, List.cons_append] at hdata
      rw [(List.cons.inj hdata).1, sequence_size_encodeChar hchar, hchar]
      rfl
    have hchunk : (data.drop index).take (String.utf8EncodeChar c).length = String.utf8EncodeChar c := by rw [hdata, List.take_left]
    have hstrict : decode_strict (String.utf8EncodeChar c) = .ok [c] :=
      decode_strict_eq_ok.mpr (List.append_nil _).symm
    rw [hsize, hchunk, hstrict]
    split
    · rfl
    · have := String.length_utf8EncodeChar c ▸ Char.utf8Size_pos c
      rw [show (String.utf8EncodeChar c).length = 1 by omega]
  | error fault =>
    have hbyte : Step data index (index + 1) := .byte hnext
    split
    · rename_i hsize
      have hsplit := List.take_append_drop (sequence_size data[index]) (data.drop index)
      cases hstrict : decode_strict ((data.drop index).take (sequence_size data[index])) with
      | ok text =>
        exfalso
        rw [decode_strict_eq_ok] at hstrict
        rw [hstrict] at hsplit
        cases text with
        | nil =>
          have hlength := congrArg List.length hstrict
          rw [List.length_take, List.length_drop] at hlength
          simp only [encode, List.flatMap_nil, List.length_nil] at hlength
          omega
        | cons c text =>
          rw [← hsplit, encode, List.flatMap_cons, List.append_assoc, next_encodeChar] at hnext
          cases hnext
      | error reason =>
        simp only
        split
        · rename_i hend
          refine ⟨data.length, .rest ?_ ?_, .inr ⟨rfl, rfl⟩⟩
          · have hwhole : (data.drop index).take (sequence_size data[index]) = data.drop index := by
              refine List.take_of_length_le ?_
              have := hend.1
              rw [List.length_take] at this
              omega
            rw [hwhole, hcons, decode_strict_fault (hcons ▸ hnext)] at hstrict
            rw [hnext, Except.error.inj hstrict, hend.2]
          · have := sequence_size_le data[index]
            have := hend.1
            rw [List.length_take, List.length_drop] at this
            omega
        · exact ⟨_, hbyte, .inl rfl⟩
    · exact ⟨_, hbyte, .inl rfl⟩

theorem step_le {data : Bytes} {index stop : Nat} (hindex : index < data.length) (h : Step data index stop) :
    index < stop ∧ stop ≤ data.length ∧ stop ≤ index + 4 := by
  cases h with
  | char h =>
    rename_i c rest
    have hlength := congrArg List.length h
    rw [List.length_drop, List.length_append] at hlength
    have := String.length_utf8EncodeChar c ▸ Char.utf8Size_pos c
    have := String.length_utf8EncodeChar c ▸ Char.utf8Size_le_four c
    omega
  | byte h => omega
  | rest h hshort => omega

theorem step_boundary {data : Bytes} {index stop : Nat} (hindex : index < data.length) (hboundary : Boundary data index)
    (h : Step data index stop) : Boundary data stop := by
  have hcons : data.drop index = data[index] :: data.drop (index + 1) := List.drop_eq_getElem_cons hindex
  cases h with
  | char h => exact boundary_add hboundary (Nat.le_of_lt hindex) (h ▸ boundary_encodeChar _ _)
  | byte h => exact boundary_add hboundary (Nat.le_of_lt hindex) (hcons ▸ boundary_fault (hcons ▸ h))
  | rest h hshort => exact boundary_length data

/-! ### The walk -/

theorem walk_end {data : Bytes} {limit_chars chars : Nat} : walk data limit_chars data.length chars = data.length :=
  walk_stop fun h => Nat.lt_irrefl _ h.1

/-- What holds of an index and the characters walked so far, and is kept by a step, holds
where the walk ends. -/
theorem walk_induction {data : Bytes} {limit_chars : Nat} {Holds : Nat → Nat → Prop}
    (step : ∀ index chars stop, index < data.length → chars < limit_chars → Step data index stop → Holds index chars →
      Holds stop (chars + 1))
    {index chars : Nat} (hchars : chars ≤ limit_chars) (h : Holds index chars) :
    ∃ chars', chars' ≤ limit_chars ∧ Holds (walk data limit_chars index chars) chars' := by
  induction hn : limit_chars - chars generalizing index chars with
  | zero => exact ⟨chars, hchars, by rw [walk_stop (by omega)]; exact h⟩
  | succ n ih =>
    by_cases hindex : index < data.length
    · obtain ⟨stop, hstep, hwalk | ⟨rfl, hwalk⟩⟩ := walk_step hindex (show chars < limit_chars by omega)
      · rw [hwalk]
        exact ih (by omega) (step index chars stop hindex (by omega) hstep h) (by omega)
      · rw [hwalk]
        exact ⟨chars + 1, by omega, step index chars _ hindex (by omega) hstep h⟩
    · exact ⟨chars, hchars, by rw [walk_stop fun hin => hindex hin.1]; exact h⟩

theorem walk_bounds (data : Bytes) (limit_chars : Nat) :
    Boundary data (walk data limit_chars 0 0) ∧ walk data limit_chars 0 0 ≤ data.length ∧ walk data limit_chars 0 0 ≤ 4 * limit_chars := by
  obtain ⟨chars, hchars, hboundary, hle, hlimit⟩ :=
    @walk_induction data limit_chars (fun index chars => Boundary data index ∧ index ≤ data.length ∧ index ≤ 4 * chars)
      (fun index chars stop hindex _ hstep h => by
        have := step_le hindex hstep
        exact ⟨step_boundary hindex h.1 hstep, this.2.1, by omega⟩)
      0 0 (Nat.zero_le _) ⟨boundary_zero data, Nat.zero_le _, Nat.le_refl _⟩
  exact ⟨hboundary, hle, by omega⟩

theorem walk_ge {data : Bytes} {limit_chars index chars : Nat} (hchars : chars ≤ limit_chars) :
    index ≤ walk data limit_chars index chars := by
  obtain ⟨_, _, h⟩ := @walk_induction data limit_chars (fun stop _ => index ≤ stop)
    (fun i _ stop hi _ hstep h => Nat.le_trans h (Nat.le_of_lt (step_le hi hstep).1)) index chars hchars (Nat.le_refl _)
  exact h

theorem walk_pos {data : Bytes} {limit_chars : Nat} (hdata : data ≠ []) (hlimit : 0 < limit_chars) : 0 < walk data limit_chars 0 0 := by
  have hpos := List.length_pos_iff.mpr hdata
  obtain ⟨stop, hstep, hwalk | ⟨-, hwalk⟩⟩ := walk_step hpos hlimit
  · rw [hwalk]
    exact Nat.lt_of_lt_of_le (step_le hpos hstep).1 (walk_ge hlimit)
  · rw [hwalk]
    exact hpos

/-- What a step takes decodes to one character more than what is after it, at most. -/
theorem step_decode {data : Bytes} {index stop : Nat} (hindex : index < data.length) (h : Step data index stop) {r : Nat} (hr : stop ≤ r) :
    (decode ((data.drop index).take (r - index))).length ≤ (decode ((data.drop stop).take (r - stop))).length + 1 := by
  have hcons : data.drop index = data[index] :: data.drop (index + 1) := List.drop_eq_getElem_cons hindex
  cases h with
  | char h =>
    rename_i c rest
    have hdrop : data.drop (index + (String.utf8EncodeChar c).length) = rest := by
      rw [← List.drop_drop, h, List.drop_left]
    rw [hdrop, h, List.take_append, List.take_of_length_le (by omega), decode_encodeChar, List.length_cons, Nat.sub_sub]
  | byte h =>
    rw [hcons, show r - index = r - (index + 1) + 1 by omega, List.take_succ_cons]
    exact length_decode_cons _ _
  | rest h hshort =>
    have hwhole : (data.drop index).take (r - index) = data.drop index := List.take_of_length_le (by rw [List.length_drop]; omega)
    rw [hwhole, hcons, decode, List.length_cons, drop_next, ← hcons, next_end h, List.drop_length, decode_nil]
    exact Nat.succ_le_succ (Nat.zero_le _)

theorem walk_decode {data : Bytes} {limit_chars index chars : Nat} (hchars : chars ≤ limit_chars) (hindex : index ≤ data.length) :
    (decode ((data.drop index).take (walk data limit_chars index chars - index))).length + chars ≤ limit_chars := by
  induction hn : limit_chars - chars generalizing index chars with
  | zero =>
    rw [walk_stop (by omega), Nat.sub_self, List.take_zero, decode_nil, List.length_nil]
    omega
  | succ n ih =>
    rcases Nat.lt_or_eq_of_le hindex with hlt | rfl
    · obtain ⟨stop, hstep, hwalk⟩ := walk_step hlt (show chars < limit_chars by omega)
      have hwalk' : walk data limit_chars index chars = walk data limit_chars stop (chars + 1) := by
        rcases hwalk with hwalk | ⟨rfl, hwalk⟩
        · exact hwalk
        · rw [hwalk, walk_end]
      have hle := (step_le hlt hstep).2.1
      have hone := step_decode hlt hstep (@walk_ge data limit_chars stop (chars + 1) (by omega))
      have hmore := ih (show chars + 1 ≤ limit_chars by omega) hle (by omega)
      rw [hwalk']
      omega
    · rw [walk_end, Nat.sub_self, List.take_zero, decode_nil, List.length_nil]
      omega

/-! ### A window -/

theorem boundary_encode (text : List Char) (rest : Bytes) : Boundary (encode text ++ rest) (encode text).length := by
  induction text with
  | nil => exact boundary_zero _
  | cons c text ih =>
    rw [encode, List.flatMap_cons, ← encode, List.append_assoc, List.length_append]
    refine boundary_add (boundary_encodeChar c _) ?_ ?_
    · rw [List.length_append]
      omega
    · rw [List.drop_left]
      exact ih

theorem length_encode (text : List Char) : text.length ≤ (encode text).length ∧ (encode text).length ≤ 4 * text.length := by
  induction text with
  | nil => exact ⟨Nat.le_refl _, Nat.le_refl _⟩
  | cons c text ih =>
    rw [encode, List.flatMap_cons, ← encode, List.length_append, List.length_cons, String.length_utf8EncodeChar]
    have := Char.utf8Size_pos c
    have := Char.utf8Size_le_four c
    omega

/-- What a page of a window is: the decoded text of the bytes it takes, up to a boundary. -/
structure Cut (data : Bytes) (limit_chars : Nat) (page : List Char × Nat) : Prop where
  text : page.1 = decode (data.take page.2)
  bounded : page.1.length ≤ limit_chars
  boundary : Boundary data page.2
  inside : page.2 ≤ data.length
  narrow : page.2 ≤ 4 * limit_chars
  advances : data ≠ [] → 0 < limit_chars → 0 < page.2

theorem utf8_window_cut (data : Bytes) (limit_chars : Nat) : Cut data limit_chars (utf8_window data limit_chars) := by
  rw [utf8_window]
  split
  · rename_i hvalid
    obtain ⟨rest, hrest⟩ := encode_take hvalid
    have hle : ((decode data).take limit_chars).length ≤ limit_chars := List.length_take_le ..
    have hne : data ≠ [] → 0 < limit_chars → 0 < ((decode data).take limit_chars).length := by
      intro hdata hlimit
      obtain ⟨b, more, rfl⟩ := List.exists_cons_of_ne_nil hdata
      rw [decode, List.length_take, List.length_cons]
      omega
    generalize (decode data).take limit_chars = text at hrest hle hne ⊢
    have hlength := length_encode text
    refine ⟨?_, hle, hrest ▸ boundary_encode text rest, ?_, Nat.le_trans hlength.2 (by omega),
      fun hdata hlimit => Nat.lt_of_lt_of_le (hne hdata hlimit) hlength.1⟩
    · have hdecode := decode_encode text []
      rw [List.append_nil, decode_nil, List.append_nil] at hdecode
      rw [hrest, List.take_left, hdecode]
    · rw [hrest, List.length_append]
      exact Nat.le_add_right _ _
  · have hbounds := walk_bounds data limit_chars
    have hdecode := @walk_decode data limit_chars 0 0 (Nat.zero_le _) (Nat.zero_le _)
    exact ⟨rfl, hdecode, hbounds.1, hbounds.2.1, hbounds.2.2, walk_pos⟩

theorem boundary_window {data : Bytes} {width i : Nat} (h : Boundary (data.take width) i) (hi : i + 4 ≤ width) : Boundary data i := by
  intro before c after heq
  by_cases hin : before.length < i
  · have hfour := String.length_utf8EncodeChar c ▸ Char.utf8Size_le_four c
    have htake : data.take width = before ++ (String.utf8EncodeChar c ++ after.take (width - before.length - (String.utf8EncodeChar c).length)) := by
      rw [heq, List.take_append, List.take_of_length_le (by omega), List.take_append,
        List.take_of_length_le (show (String.utf8EncodeChar c).length ≤ width - before.length by omega)]
    exact h _ _ _ htake
  · exact .inl (by omega)

/-! ### The pages of a file -/

variable (file : Bytes) (limit : Option Int)

theorem page_limit_pos : 0 < page_limit limit := by
  rw [page_limit]
  omega

/-- Each call takes a cut of what the calls before it left. -/
theorem page_cut (k : Nat) :
    ∃ n, offset file limit (k + 1) = offset file limit k + n ∧
      Cut (file.drop (offset file limit k)) (page_limit limit) (content file limit k, n) := by
  have hstart : (max 0 ((some ((offset file limit k : Nat) : Int)).getD 0)).toNat = offset file limit k := by
    rw [Option.getD_some, Int.max_eq_right (Int.natCast_nonneg _), Int.toNat_natCast]
  have hcut := utf8_window_cut ((file.drop (offset file limit k)).take (page_limit limit * 4 + 8)) (page_limit limit)
  have hnarrow := hcut.narrow
  refine ⟨(utf8_window ((file.drop (offset file limit k)).take (page_limit limit * 4 + 8)) (page_limit limit)).2, ?_, ?_⟩
  · rw [offset, read_file, hstart]
  · rw [content, read_file, hstart]
    refine ⟨?_, hcut.bounded, boundary_window hcut.boundary (by omega), ?_, hnarrow, fun hrest hlimit => hcut.advances ?_ hlimit⟩
    · have htext := hcut.text
      rw [List.take_take, Nat.min_eq_left (by omega)] at htext
      exact htext
    · exact Nat.le_trans hcut.inside (List.length_take_le' ..)
    · intro hnil
      rcases List.take_eq_nil_iff.mp hnil with hzero | hnil
      · omega
      · exact hrest hnil

theorem offset_cut (k : Nat) : offset file limit k ≤ file.length ∧ Boundary file (offset file limit k) := by
  induction k with
  | zero => exact ⟨Nat.zero_le _, boundary_zero file⟩
  | succ k ih =>
    obtain ⟨n, hn, hcut⟩ := page_cut file limit k
    have hinside := hcut.inside
    rw [List.length_drop] at hinside
    rw [hn]
    exact ⟨by omega, boundary_add ih.2 ih.1 hcut.boundary⟩

theorem offset_advances {k : Nat} (h : offset file limit k < file.length) : offset file limit k < offset file limit (k + 1) := by
  obtain ⟨n, hn, hcut⟩ := page_cut file limit k
  have hpos := hcut.advances (fun hnil => by
    have := congrArg List.length hnil
    rw [List.length_drop, List.length_nil] at this
    omega) (page_limit_pos limit)
  rw [hn]
  exact Nat.lt_add_of_pos_right hpos

theorem offset_mono (k : Nat) : offset file limit k ≤ offset file limit (k + 1) := by
  obtain ⟨n, hn, -⟩ := page_cut file limit k
  rw [hn]
  exact Nat.le_add_right _ _

theorem offset_reaches (k : Nat) : min k file.length ≤ offset file limit k := by
  induction k with
  | zero => exact Nat.min_le_left ..
  | succ k ih =>
    rcases Nat.lt_or_ge (offset file limit k) file.length with hlt | hge
    · have := offset_advances file limit hlt
      omega
    · have := offset_mono file limit k
      omega

/-- What `n` calls make of a file, the first of them from its start and each from where the
one before it ended. -/
structure Paged (n : Nat) : Prop where
  ends : offset file limit n = file.length
  advances : ∀ k < n, offset file limit k < offset file limit (k + 1)
  once : ∀ i < file.length, ∃! k, k < n ∧ offset file limit k ≤ i ∧ i < offset file limit (k + 1)
  bounded : ∀ k < n, ((content file limit k).length : Int) ≤ max 1 (limit.getD 8000)
  whole : ∀ before c after, file = before ++ (String.utf8EncodeChar c ++ after) →
    ∃ k < n, offset file limit k ≤ before.length ∧ before.length + (String.utf8EncodeChar c).length ≤ offset file limit (k + 1)
  decoded : ∀ text, file = encode text → (List.range n).flatMap (content file limit) = text

variable {file limit}

theorem offset_mono_le {j k : Nat} (h : j ≤ k) : offset file limit j ≤ offset file limit k := by
  induction k with
  | zero => exact Nat.le_of_eq (congrArg _ (Nat.le_zero.mp h))
  | succ k ih =>
    rcases Nat.lt_or_eq_of_le h with hlt | rfl
    · exact Nat.le_trans (ih (Nat.le_of_lt_succ hlt)) (offset_mono file limit k)
    · exact Nat.le_refl _

theorem page_of {n i : Nat} (hi : i < offset file limit n) : ∃! k, k < n ∧ offset file limit k ≤ i ∧ i < offset file limit (k + 1) := by
  have hex : ∃ k, k < n ∧ offset file limit k ≤ i ∧ i < offset file limit (k + 1) := by
    induction n with
    | zero => exact absurd hi (Nat.not_lt_zero i)
    | succ n ih =>
      by_cases hn : i < offset file limit n
      · obtain ⟨k, hk, h⟩ := ih hn
        exact ⟨k, Nat.lt_succ_of_lt hk, h⟩
      · exact ⟨n, Nat.lt_succ_self n, Nat.le_of_not_lt hn, hi⟩
  obtain ⟨k, hk⟩ := hex
  refine ⟨k, hk, fun j hj => ?_⟩
  rcases Nat.lt_trichotomy j k with hlt | heq | hgt
  · exact absurd (Nat.lt_of_lt_of_le hj.2.2 (offset_mono_le hlt)) (Nat.not_lt.mpr hk.2.1)
  · exact heq
  · exact absurd (Nat.lt_of_lt_of_le hk.2.2 (offset_mono_le hgt)) (Nat.not_lt.mpr hj.2.1)

/-- A boundary of encoded text cuts the text. -/
theorem encode_cut {text : List Char} {i : Nat} (hi : i ≤ (encode text).length) (h : Boundary (encode text) i) :
    ∃ before after, text = before ++ after ∧ (encode before).length = i := by
  induction text generalizing i with
  | nil => exact ⟨[], [], rfl, (Nat.le_zero.mp hi).symm⟩
  | cons c text ih =>
    rw [encode, List.flatMap_cons, ← encode] at hi h
    rcases h [] c (encode text) rfl with hzero | hle
    · exact ⟨[], c :: text, rfl, (Nat.le_zero.mp hzero).symm⟩
    · rw [List.length_nil, Nat.zero_add] at hle
      obtain ⟨j, rfl⟩ := Nat.exists_eq_add_of_le hle
      have hrest : Boundary (encode text) j := by
        intro before d after heq
        rcases h (String.utf8EncodeChar c ++ before) d after (by rw [heq, List.append_assoc]) with h | h
        · rw [List.length_append] at h
          exact .inl (by omega)
        · rw [List.length_append] at h
          exact .inr (by omega)
      obtain ⟨before, after, rfl, hlength⟩ := ih (by rw [List.length_append] at hi; omega) hrest
      refine ⟨c :: before, after, rfl, ?_⟩
      rw [encode, List.flatMap_cons, ← encode, List.length_append, hlength]

theorem encode_append (a b : List Char) : encode (a ++ b) = encode a ++ encode b := List.flatMap_append

/-- The pages so far, with the text of what is left, are the text. -/
theorem pages_decoded {text : List Char} (h : file = encode text) (k : Nat) :
    ∃ rest, text = (List.range k).flatMap (content file limit) ++ rest ∧ file.drop (offset file limit k) = encode rest := by
  induction k with
  | zero => exact ⟨text, rfl, h⟩
  | succ k ih =>
    obtain ⟨rest, htext, hrest⟩ := ih
    obtain ⟨n, hn, hcut⟩ := page_cut file limit k
    rw [hrest] at hcut
    obtain ⟨page, later, rfl, hpage⟩ := encode_cut hcut.inside hcut.boundary
    have hcontent : content file limit k = page := by
      have hdecode := decode_encode page []
      rw [List.append_nil, decode_nil, List.append_nil] at hdecode
      have htext := hcut.text
      rwa [encode_append, ← hpage, List.take_left, hdecode] at htext
    refine ⟨later, ?_, ?_⟩
    · rw [htext, List.range_succ, List.flatMap_append, List.flatMap_singleton, hcontent, List.append_assoc]
    · rw [hn, ← List.drop_drop, hrest, encode_append, ← show (encode page).length = n from hpage, List.drop_left]

variable (file limit) in
theorem page_limit_le : ((page_limit limit : Nat) : Int) ≤ max 1 (limit.getD 8000) := by
  rw [page_limit]
  omega

/-- The pages of any file, read to its end, cover its bytes once each, cut no character and
keep to the limit, which is one at least; of UTF-8 they are the text. -/
theorem read_file_paged (file : Bytes) (limit : Option Int) : ∃ n, Paged file limit n := by
  have hreached : ∃ n, offset file limit n = file.length := by
    have hreach := offset_reaches file limit file.length
    rw [Nat.min_self] at hreach
    exact ⟨_, Nat.le_antisymm (offset_cut file limit _).1 hreach⟩
  have hends := Nat.find_spec hreached
  refine ⟨Nat.find hreached, hends, fun k hk => offset_advances file limit ?_, fun i hi => page_of (hends.symm ▸ hi), fun k _ => ?_, fun before c after heq => ?_, fun text htext => ?_⟩
  · exact Nat.lt_of_le_of_ne (offset_cut file limit k).1 (Nat.find_min hreached hk)
  · obtain ⟨n, -, hcut⟩ := page_cut file limit k
    exact Int.le_trans (Int.ofNat_le.mpr hcut.bounded) (page_limit_le limit)
  · have hlt : before.length < file.length := by
      rw [heq, List.length_append, List.length_append, String.length_utf8EncodeChar]
      have := Char.utf8Size_pos c
      omega
    obtain ⟨k, ⟨hk, hle, hin⟩, -⟩ := @page_of file limit _ _ (hends.symm ▸ hlt)
    refine ⟨k, hk, hle, ?_⟩
    rcases (offset_cut file limit (k + 1)).2 before c after heq with hbefore | hafter
    · exact absurd hin (Nat.not_lt.mpr hbefore)
    · exact hafter
  · obtain ⟨rest, hrest, hnil⟩ := @pages_decoded file limit _ htext (Nat.find hreached)
    rw [hends, List.drop_length] at hnil
    have hlength := (length_encode rest).1
    rw [← hnil, List.length_nil] at hlength
    rw [hrest, List.length_eq_zero_iff.mp (Nat.le_zero.mp hlength), List.append_nil]

/-- A limit below one is taken as one. -/
theorem limit_zero_page : ¬∀ (file : Bytes) (limit : Int) (k : Nat), ((content file (some limit) k).length : Int) ≤ limit := by
  intro h
  have hone := h [97] 0 0
  have hdecode : decode [97] = ['a'] := by
    have := decode_encode ['a'] []
    rwa [decode_nil] at this
  have hcontent : content [97] (some 0) 0 = ['a'] := by
    show (utf8_window [97] 1).1 = ['a']
    rw [utf8_window, hdecode, if_pos (by decide)]
    rfl
  rw [hcontent] at hone
  exact absurd hone (by decide)

end LeanFlow.Paging
