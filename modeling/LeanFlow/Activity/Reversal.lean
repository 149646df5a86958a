import LeanFlow.Activity.Readers
import LeanFlow.General.Split

/-! When the reverse reader gives the records of the forward one in reverse.

Over the records of a file, which are its parts between newlines, each reader goes
through them in its own direction and keeps what it makes of each. What they make of one
differs: the forward reader counts the line end of a record towards the limit, and hands
it to the decoder. -/
namespace LeanFlow.Activity
open General
variable {α : Type} (loads : Bytes → Option α)

/-! ### The records of a file -/

/-- No newline from `start` to `stop`. -/
def Clear (file : Bytes) (start stop : Nat) : Prop := ∀ i, start ≤ i → i < stop → file[i]? ≠ some 10

/-- What the reverse reader makes of a record. -/
def bare (limit : Nat) (body : Bytes) : List α :=
  if 0 < body.length ∧ body.length ≤ limit then (loads body).toList else []

/-- What the forward reader makes of one that ends with a newline. -/
def ended (limit : Nat) (body : Bytes) : List α :=
  if body.length + 1 ≤ limit then (loads (body ++ [10])).toList else []

def forward_records (limit : Nat) : List Bytes → List α
  | [] => []
  | [last] => bare loads limit last
  | body :: rest => ended loads limit body ++ forward_records limit rest

/-- The records up to `stop`, newest first. -/
def reverse_records (limit : Nat) (file : Bytes) (stop : Nat) : List α :=
  ((file.take stop).splitOn 10).reverse.flatMap (bare loads limit)

theorem clear_take {file : Bytes} {stop : Nat} (h : Clear file 0 stop) : 10 ∉ file.take stop := by
  intro hmem
  obtain ⟨i, hi, hat⟩ := List.mem_iff_getElem.mp hmem
  rw [List.length_take] at hi
  rw [List.getElem_take] at hat
  exact h i (Nat.zero_le i) (by omega) (by rw [List.getElem?_eq_getElem (by omega), hat])

theorem clear_drop {file : Bytes} {start stop : Nat} (h : Clear file start stop) : 10 ∉ (file.drop start).take (stop - start) := by
  intro hmem
  obtain ⟨i, hi, hat⟩ := List.mem_iff_getElem.mp hmem
  rw [List.length_take, List.length_drop] at hi
  rw [List.getElem_take, List.getElem_drop] at hat
  exact h (start + i) (Nat.le_add_right _ _) (by omega) (by rw [List.getElem?_eq_getElem (by omega), hat])

theorem take_newline {file : Bytes} {offset stop : Nat} (hat : file[offset]? = some 10) (hstop : offset < stop) :
    file.take stop = file.take offset ++ 10 :: (file.drop (offset + 1)).take (stop - (offset + 1)) := by
  obtain ⟨hlt, hget⟩ := List.getElem?_eq_some_iff.mp hat
  obtain ⟨d, rfl⟩ := Nat.exists_eq_add_of_lt hstop
  rw [show offset + d + 1 = offset + (d + 1) by omega, List.take_add, List.drop_eq_getElem_cons hlt, hget,
    List.take_succ_cons, show offset + (d + 1) - (offset + 1) = d by omega]

theorem reverse_records_newline {limit : Nat} {file : Bytes} {offset stop : Nat} (hat : file[offset]? = some 10)
    (hstop : offset < stop) (hclear : Clear file (offset + 1) stop) :
    reverse_records loads limit file stop =
      bare loads limit ((file.drop (offset + 1)).take (stop - (offset + 1))) ++ reverse_records loads limit file offset := by
  rw [reverse_records, take_newline hat hstop, List.splitOn_append_cons_self,
    List.splitOn_eq_singleton (clear_drop hclear), List.reverse_append, List.flatMap_append]
  simp [reverse_records]

theorem reverse_records_clear {limit : Nat} {file : Bytes} {stop : Nat} (h : Clear file 0 stop) :
    reverse_records loads limit file stop = bare loads limit (file.take stop) := by
  rw [reverse_records, List.splitOn_eq_singleton (clear_take h)]
  simp

/-! ### The reverse reader -/

theorem read_record_eq {limit : Nat} {file : Bytes} {start stop : Nat} (h : stop ≤ file.length) :
    read_record loads limit file start (stop - start) = bare loads limit ((file.drop start).take (stop - start)) := by
  have hlength : ((file.drop start).take (stop - start)).length = stop - start := by
    rw [List.length_take, List.length_drop]
    omega
  rw [read_record, bare, hlength, if_pos rfl]

/-- Over one chunk: what is found, with the records before the newline found last, is what
there was to find. -/
theorem scan_chunk_records {limit : Nat} {file chunk : Bytes} {chunk_start stop record_end : Nat}
    (hchunk : ∀ i < chunk.length, chunk[i]? = file[chunk_start + i]?) (hstop : stop ≤ chunk.length)
    (hle : chunk_start + stop ≤ record_end) (hend : record_end ≤ file.length) (hclear : Clear file (chunk_start + stop) record_end) :
    let found := scan_chunk loads limit file chunk chunk_start stop record_end
    reverse_records loads limit file record_end = found.1 ++ reverse_records loads limit file found.2 ∧
      chunk_start ≤ found.2 ∧ found.2 ≤ file.length ∧ Clear file chunk_start found.2 := by
  fun_induction scan_chunk loads limit file chunk chunk_start stop record_end with
  | case1 stop record_end h =>
    refine ⟨rfl, by omega, hend, fun i hi hlt => ?_⟩
    by_cases hin : i < chunk_start + stop
    · obtain ⟨j, rfl⟩ := Nat.exists_eq_add_of_le hi
      rw [← hchunk j (by omega)]
      exact rfind_eq_none h j (by omega)
    · exact hclear i (by omega) hlt
  | case2 stop record_end offset h hlt more ih =>
    obtain ⟨-, hat, hafter⟩ := rfind_eq_some h
    rw [hchunk offset (by omega)] at hat
    have hbody : Clear file (chunk_start + offset + 1) record_end := by
      intro i hi hlt'
      by_cases hin : i < chunk_start + stop
      · obtain ⟨j, rfl⟩ := Nat.exists_eq_add_of_le (show chunk_start ≤ i by omega)
        rw [← hchunk j (by omega)]
        exact hafter j (by omega) (by omega)
      · exact hclear i (by omega) hlt'
    obtain ⟨hfound, hrest⟩ := ih (by omega) (Nat.le_refl _) (by omega) (fun i hi hlt' => absurd hi (by omega))
    refine ⟨?_, hrest⟩
    rw [reverse_records_newline loads hat (by omega) hbody, hfound, read_record_eq loads hend, List.append_assoc]

theorem read_reverse_records {size : {size : Nat // 0 < size}} {limit : Nat} {file : Bytes} {position record_end : Nat} (hle : position ≤ record_end)
    (hend : record_end ≤ file.length) (hclear : Clear file position record_end) :
    read_reverse loads size limit file position record_end = reverse_records loads limit file record_end := by
  fun_induction read_reverse loads size limit file position record_end with
  | case1 position record_end hpos chunk_start chunk hnil =>
    have : chunk.length = position - chunk_start := by
      rw [List.length_take, List.length_drop]
      omega
    rw [hnil, List.length_nil] at this
    have : chunk_start < position := Nat.sub_lt hpos size.2
    omega
  | case2 position record_end hpos chunk_start chunk hne found ih =>
    have hlt : chunk_start < position := Nat.sub_lt hpos size.2
    have hlength : chunk.length = position - chunk_start := by
      rw [List.length_take, List.length_drop]
      omega
    have hchunk : ∀ i < chunk.length, chunk[i]? = file[chunk_start + i]? := by
      intro i hi
      rw [List.getElem?_take_of_lt (by omega), List.getElem?_drop]
    have hscan := @scan_chunk_records α loads limit file chunk chunk_start chunk.length record_end hchunk (Nat.le_refl _)
      (by omega) hend (by rw [hlength, show chunk_start + (position - chunk_start) = position by omega]; exact hclear)
    rw [hscan.1, ih hscan.2.1 hscan.2.2.1 hscan.2.2.2]
  | case3 position record_end hpos =>
    obtain rfl : position = 0 := by omega
    rw [reverse_records_clear loads hclear]
    exact read_record_eq loads hend

/-! ### The forward reader -/

theorem readline_whole {n : Nat} {rest : Bytes} (h : 10 ∉ rest) : readline n rest = (rest.take n, rest.drop n) := by
  induction n generalizing rest with
  | zero => rfl
  | succ n ih =>
    cases rest with
    | nil => rfl
    | cons b rest =>
      obtain ⟨hb, hrest⟩ := not_or.mp (List.mem_cons.not.mp h)
      rw [readline, if_neg (Ne.symm hb), ih hrest]
      rfl

theorem readline_newline {n : Nat} {body rest : Bytes} (h : 10 ∉ body) :
    readline n (body ++ 10 :: rest) =
      if body.length < n then (body ++ [10], rest) else (body.take n, body.drop n ++ 10 :: rest) := by
  induction n generalizing body with
  | zero => rfl
  | succ n ih =>
    cases body with
    | nil => rfl
    | cons b body =>
      obtain ⟨hb, hbody⟩ := not_or.mp (List.mem_cons.not.mp h)
      rw [List.cons_append, readline, if_neg (Ne.symm hb), ih hbody]
      simp only [List.length_cons, Nat.add_lt_add_iff_right]
      split <;> rfl

theorem getLast_take {body : Bytes} (n : Nat) (h : 10 ∉ body) : (body.take n).getLast? ≠ some 10 :=
  fun hlast => h (List.mem_of_mem_take (List.mem_of_getLast? hlast))

theorem discard_whole {rest : Bytes} (h : 10 ∉ rest) : discard_record_tail rest = [] := by
  fun_induction discard_record_tail rest with
  | case1 rest hnil =>
    rw [readline_whole h] at hnil ⊢
    rcases List.take_eq_nil_iff.mp hnil with hzero | rfl
    · exact absurd hzero discard_chunk_pos.ne'
    · rfl
  | case2 rest hne hlast =>
    rw [readline_whole h] at hlast
    exact absurd hlast (getLast_take _ h)
  | case3 rest hne hlast ih =>
    rw [readline_whole h] at ih ⊢
    exact ih fun hmem => h (List.mem_of_mem_drop hmem)

theorem discard_newline {body rest : Bytes} (h : 10 ∉ body) : discard_record_tail (body ++ 10 :: rest) = rest := by
  induction hn : body.length using Nat.strongRecOn generalizing body with
  | ind n ih =>
    rw [discard_record_tail]
    simp only [readline_newline h]
    by_cases hlt : body.length < DISCARD_CHUNK_BYTES
    · simp [hlt]
    · have htake : body.take DISCARD_CHUNK_BYTES ≠ [] := by
        intro hnil
        have := congrArg List.length hnil
        rw [List.length_take, List.length_nil] at this
        have := discard_chunk_pos
        omega
      simp only [if_neg hlt, dif_neg htake, if_neg (getLast_take _ h)]
      refine ih _ ?_ (fun hmem => h (List.mem_of_mem_drop hmem)) rfl
      rw [List.length_drop]
      have := discard_chunk_pos
      omega

/-- An unterminated record is read to its end, unless it is too long. -/
theorem read_forward_last (limit : Nat) {rest : Bytes} (h : 10 ∉ rest) :
    read_forward loads limit rest = forward_records loads limit [rest] := by
  have hend : read_forward loads limit [] = [] := by rw [read_forward]; rfl
  rw [read_forward, forward_records, bare]
  simp only [readline_whole h]
  by_cases hnil : rest = []
  · simp [hnil]
  · have hpos := List.length_pos_iff.mpr hnil
    have htake : rest.take (limit + 1) ≠ [] := by simp [hnil]
    by_cases hle : rest.length ≤ limit
    · rw [dif_neg htake, List.take_of_length_le (by omega), List.drop_of_length_le (by omega), hend,
        if_neg (Nat.not_lt.mpr hle), if_pos ⟨hpos, hle⟩, List.append_nil]
    · rw [dif_neg htake, if_pos (by rw [List.length_take]; omega), if_neg (getLast_take _ h),
        discard_whole fun hmem => h (List.mem_of_mem_drop hmem), hend, if_neg fun hin => hle hin.2]

/-- A line is read with its end, or skipped to its end. -/
theorem read_forward_line (limit : Nat) {body rest : Bytes} (h : 10 ∉ body) :
    read_forward loads limit (body ++ 10 :: rest) = ended loads limit body ++ read_forward loads limit rest := by
  rw [read_forward, ended]
  simp only [readline_newline h]
  by_cases hlt : body.length < limit + 1
  · rw [if_pos hlt, dif_neg (List.append_ne_nil_of_right_ne_nil body (List.cons_ne_nil 10 [])), List.length_append,
      List.length_singleton]
    by_cases hle : body.length + 1 ≤ limit
    · rw [if_neg (Nat.not_lt.mpr hle), if_pos hle]
    · rw [if_pos (Nat.lt_of_not_le hle), if_neg hle, if_pos (by simp), List.nil_append]
  · have htake : body.take (limit + 1) ≠ [] := by
      intro hnil
      have := congrArg List.length hnil
      rw [List.length_take, List.length_nil] at this
      omega
    rw [if_neg hlt, dif_neg htake, if_pos (by rw [List.length_take]; omega), if_neg (getLast_take _ h),
      discard_newline fun hmem => h (List.mem_of_mem_drop hmem), if_neg (by omega), List.nil_append]

theorem read_forward_records (limit : Nat) (rest : Bytes) :
    read_forward loads limit rest = forward_records loads limit (rest.splitOn 10) := by
  induction hn : rest.length using Nat.strongRecOn generalizing rest with
  | ind n ih =>
    rcases splitOn_cases 10 rest with ⟨hclear, hsplit⟩ | ⟨body, more, hbody, rfl, hsplit⟩
    · exact hsplit ▸ read_forward_last loads limit hclear
    · have hmore := ih more.length (by rw [← hn, List.length_append, List.length_cons]; omega) more rfl
      obtain ⟨first, others, hcons⟩ := List.exists_cons_of_ne_nil (List.splitOn_ne_nil 10 more)
      rw [read_forward_line loads limit hbody, hsplit, hmore, hcons]
      rfl

theorem iter_jsonl_dicts_eq (paths : List (Option Bytes)) (max_record_bytes : Int) :
    iter_jsonl_dicts loads paths max_record_bytes =
      paths.flatMap fun path => path.elim [] fun file =>
        forward_records loads (record_limit max_record_bytes) (file.splitOn 10) := by
  rw [iter_jsonl_dicts, funext (read_forward_records loads (record_limit max_record_bytes))]

theorem iter_jsonl_dicts_reverse_eq (paths : List (Option Bytes)) (max_record_bytes : Int) :
    iter_jsonl_dicts_reverse loads paths max_record_bytes =
      paths.reverse.flatMap fun path => path.elim [] fun file =>
        (file.splitOn 10).reverse.flatMap (bare loads (record_limit max_record_bytes)) := by
  have hfile (file : Bytes) : read_reverse loads REVERSE_SCAN_CHUNK_BYTES (record_limit max_record_bytes) file file.length file.length =
      (file.splitOn 10).reverse.flatMap (bare loads (record_limit max_record_bytes)) := by
    rw [read_reverse_records loads (Nat.le_refl _) (Nat.le_refl _) fun i hi hlt => absurd hlt (Nat.not_lt.mpr hi),
      reverse_records, List.take_length]
  rw [iter_jsonl_dicts_reverse, funext hfile]

/-! ### Agreement -/

/-- A terminated record that both readers take for the same. -/
def Agree (limit : Nat) (body : Bytes) : Prop :=
  (body.length + 1 ≤ limit → loads (body ++ [10]) = if body = [] then none else loads body) ∧
    (body.length = limit → loads body = none)

theorem agree_iff {limit : Nat} (hlimit : 0 < limit) (body : Bytes) :
    ended loads limit body = bare loads limit body ↔ Agree loads limit body := by
  have htoList (x y : Option α) : x.toList = y.toList ↔ x = y := by cases x <;> cases y <;> simp
  rw [Agree, ended, bare]
  cases body with
  | nil =>
    have hpos : ¬(0 < ([] : Bytes).length ∧ ([] : Bytes).length ≤ limit) := fun h => Nat.lt_irrefl 0 h.1
    rw [if_neg hpos, if_pos rfl, if_pos (show ([] : Bytes).length + 1 ≤ limit from hlimit), List.nil_append]
    exact ⟨fun h => ⟨fun _ => (htoList _ none).mp h, fun hzero => absurd hzero.symm (Nat.ne_of_gt hlimit)⟩,
      fun h => (htoList _ none).mpr (h.1 hlimit)⟩
  | cons b body =>
    have hpos : 0 < (b :: body).length := Nat.succ_pos _
    rw [if_neg (List.cons_ne_nil b body)]
    rcases Nat.lt_trichotomy (b :: body).length limit with hlt | heq | hgt
    · rw [if_pos (show (b :: body).length + 1 ≤ limit from hlt), if_pos ⟨hpos, Nat.le_of_lt hlt⟩, htoList]
      exact ⟨fun h => ⟨fun _ => h, fun heq => absurd heq (Nat.ne_of_lt hlt)⟩, fun h => h.1 hlt⟩
    · have hshort : ¬(b :: body).length + 1 ≤ limit := Nat.not_le.mpr (Nat.lt_succ_of_le (Nat.le_of_eq heq.symm))
      rw [if_neg hshort, if_pos ⟨hpos, Nat.le_of_eq heq⟩]
      exact ⟨fun h => ⟨fun hle => absurd hle hshort, fun _ => ((htoList none _).mp h).symm⟩, fun h => by rw [h.2 heq]; rfl⟩
    · have hshort : ¬(b :: body).length + 1 ≤ limit := fun h => Nat.lt_asymm hgt h
      rw [if_neg hshort, if_neg fun h => Nat.not_le.mpr hgt h.2]
      exact ⟨fun _ => ⟨fun hle => absurd hle hshort, fun heq => absurd heq (Nat.ne_of_gt hgt)⟩, fun _ => rfl⟩

/-- The records of the files that end with a newline, without it. -/
def terminated (paths : List (Option Bytes)) : List Bytes :=
  paths.flatMap fun path => path.elim [] fun file => (file.splitOn 10).dropLast

theorem forward_records_bare {limit : Nat} {bodies : List Bytes}
    (h : ∀ body ∈ bodies.dropLast, ended loads limit body = bare loads limit body) :
    forward_records loads limit bodies = bodies.flatMap (bare loads limit) := by
  induction bodies with
  | nil => rfl
  | cons body rest ih =>
    cases rest with
    | nil => simp [forward_records]
    | cons next rest =>
      rw [forward_records, h body List.mem_cons_self, ih fun other hother => h other (List.mem_cons_of_mem body hother),
        ← List.flatMap_cons]
      exact List.cons_ne_nil next rest

theorem reverse_bare (limit : Nat) : List.reverse ∘ bare loads limit = bare loads limit := by
  funext body
  rw [Function.comp_apply, bare]
  split
  · cases loads body <;> rfl
  · rfl

theorem file_reversed {limit : Nat} {file : Bytes}
    (h : ∀ body ∈ (file.splitOn 10).dropLast, ended loads limit body = bare loads limit body) :
    (forward_records loads limit (file.splitOn 10)).reverse = (file.splitOn 10).reverse.flatMap (bare loads limit) := by
  rw [forward_records_bare loads h, List.reverse_flatMap, reverse_bare]

/-- Over files whose terminated records are of a kind, whatever the kind, the reverse
reader reverses the forward one if and only if they agree on every record of it. -/
theorem reverse_reverses_iff (max_record_bytes : Int) (Kind : Bytes → Prop) :
    (∀ paths, (∀ body ∈ terminated paths, Kind body) →
      iter_jsonl_dicts_reverse loads paths max_record_bytes = (iter_jsonl_dicts loads paths max_record_bytes).reverse) ↔
    ∀ body, 10 ∉ body → Kind body → Agree loads (record_limit max_record_bytes) body := by
  have hlimit : 0 < record_limit max_record_bytes := by
    rw [record_limit]
    omega
  constructor
  · intro h body hclear hkind
    have hsplit : (body ++ [10]).splitOn 10 = [body, []] := by
      rw [List.splitOn_append_cons_self_of_not_mem hclear, List.splitOn_nil]
    have hone := h [some (body ++ [10])] (by simp [terminated, hsplit, hkind])
    rw [iter_jsonl_dicts_eq, iter_jsonl_dicts_reverse_eq] at hone
    simp only [List.reverse_singleton, List.flatMap_singleton, Option.elim_some, hsplit, forward_records] at hone
    have hnil : bare loads (record_limit max_record_bytes) [] = [] := rfl
    rw [← agree_iff loads hlimit, ← reverse_bare loads, Function.comp_apply, ← List.reverse_inj, List.reverse_reverse]
    simpa [hnil] using hone.symm
  · intro h paths hpaths
    rw [iter_jsonl_dicts_eq, iter_jsonl_dicts_reverse_eq, List.reverse_flatMap]
    refine List.flatMap_congr fun path hpath => ?_
    cases path with
    | none => rfl
    | some file =>
      refine (file_reversed loads fun body hbody => ?_).symm
      refine (agree_iff loads hlimit body).mpr (h body ?_ (hpaths body ?_))
      · exact not_mem_of_mem_splitOn (List.dropLast_subset _ hbody)
      · exact List.mem_flatMap.mpr ⟨some file, List.mem_reverse.mp hpath, hbody⟩

/-- The decoder's reading of two objects, to show a reader on them. -/
def empty_object (record : Bytes) : Option Unit :=
  if record = [123, 125] ∨ record = [123, 125, 10] then some () else none

/-- A record that fits without its line end only is no record to the forward reader. -/
theorem record_of_limit_kept :
    ¬∀ (paths : List (Option Bytes)) (max_record_bytes : Int),
      iter_jsonl_dicts_reverse empty_object paths max_record_bytes = (iter_jsonl_dicts empty_object paths max_record_bytes).reverse := by
  intro h
  have hone := h [some [123, 125, 10]] 2
  rw [iter_jsonl_dicts_eq, iter_jsonl_dicts_reverse_eq] at hone
  revert hone
  decide

end LeanFlow.Activity
