import LeanFlow.Receipts.Bounds
import Mathlib.Data.List.Induction
import Mathlib.Tactic.IntervalCases

/-! Runs of the ledger.

`recorded` is what the calls that did not raise recorded: each name once, with its latest
record, in the order of those. -/
namespace LeanFlow.Receipts
open General

structure State where
  directory : Directory := {}
  recorded : Records := []

section runs

variable (float_repr : Rat → List Char)

/-- What the ledger gives back. -/
def State.receipts (state : State) : Records := Receipts.receipts float_repr state.directory.ledger

def State.next (state : State) (call : Call) : State :=
  match record_download float_repr state.directory call with
  | (.ok _, directory) =>
    { directory
      recorded := call.metadata.path.elim state.recorded fun path => replace state.recorded (path_name path) (receipt_record call.metadata) }
  | (.error _, directory) => { state with directory }

def run (calls : List Call) : State := calls.foldl (State.next float_repr) {}

/-- The reader has a most recent part of what was recorded, in both bounds, with the last record. -/
structure Good (state : State) : Prop where
  recent : state.receipts float_repr <:+ state.recorded
  entries : (state.receipts float_repr).length ≤ MAX_CANDIDATES
  bytes : ∀ file ∈ state.directory.ledger, Json.file_size float_repr file ≤ MAX_RECEIPT_BYTES
  last : (state.receipts float_repr).getLast? = state.recorded.getLast?

/-- If the call writes, then writer and reader agree on what it would keep. -/
def Meets (state : State) (call : Call) : Prop :=
  call.linked = false → call.fault = none → ∀ path ∈ call.metadata.path,
    Agrees float_repr (replace (state.receipts float_repr) (path_name path) (receipt_record call.metadata))

/-! ### One call -/

/-- A write that fails leaves the ledger: what it did is in the temporary file. -/
theorem write_error {fault : Option Fault} {data : Json} {d : Directory} {e : Error}
    (h : (atomic_json_write float_repr fault data d).1 = .error e) : (atomic_json_write float_repr fault data d).2.ledger = d.ledger := by
  have hunlink (removed : Bool) (d : Directory) : (d.unlink removed).ledger = d.ledger := by cases removed <;> rfl
  cases fault with
  | none => cases h
  | some fault =>
    cases fault with
    | mkstemp => rfl
    | dump written removed => exact hunlink removed _
    | replace removed => exact hunlink removed _

theorem record_error {d : Directory} {call : Call} {e : Error} (h : (record_download float_repr d call).1 = .error e) :
    (record_download float_repr d call).2.ledger = d.ledger := by
  revert h
  unfold record_download
  split
  · exact fun _ => rfl
  · split
    · exact fun _ => rfl
    · simp only
      split
      · exact fun _ => rfl
      · split
        · exact fun _ => rfl
        · exact fun h => write_error float_repr h

theorem record_ok {d : Directory} {call : Call} (h : (record_download float_repr d call).1 = .ok ()) :
    call.linked = false ∧ call.fault = none ∧ ∃ path ∈ call.metadata.path, ∃ kept,
      evict float_repr (replace (receipts float_repr d.ledger) (path_name path) (receipt_record call.metadata)) = .ok kept ∧
        Measured float_repr [(path_name path, receipt_record call.metadata)] ∧
        (record_download float_repr d call).2 = { d with ledger := some (payload kept) } := by
  revert h
  unfold record_download
  split
  · exact fun h => by cases h
  · rename_i hlinked
    split
    · exact fun h => by cases h
    · rename_i path hpath
      simp only
      split
      · exact fun h => by cases h
      · rename_i hmeasure
        split
        · exact fun h => by cases h
        · rename_i kept hkept
          intro h
          cases hfault : call.fault with
          | none =>
            exact ⟨Bool.eq_false_iff.mpr hlinked, rfl, path, hpath, kept, hkept,
              ⟨show 1 ≤ MAX_CANDIDATES by decide, Nat.not_lt.mp hmeasure⟩, rfl⟩
          | some fault =>
            rw [hfault] at h
            cases fault <;> cases h

/-- A call that raises nothing. -/
theorem record_download_ok {d : Directory} {call : Call} {path : String} {kept : Records} (hlinked : call.linked = false)
    (hfault : call.fault = none) (hpath : call.metadata.path = some path)
    (hmeasure : ¬ measure float_repr [(path_name path, receipt_record call.metadata)] > MAX_RECEIPT_BYTES)
    (hkept : evict float_repr (replace (receipts float_repr d.ledger) (path_name path) (receipt_record call.metadata)) = .ok kept) :
    record_download float_repr d call = (.ok (), { d with ledger := some (payload kept) }) := by
  unfold record_download
  rw [if_neg (Bool.eq_false_iff.mp hlinked), hpath]
  simp only
  rw [if_neg hmeasure, hkept, hfault]
  rfl

theorem replace_suffix {a b : Records} (h : a <:+ b) (name : String) (record : Json) : replace a name record <:+ replace b name record := by
  obtain ⟨before, rfl⟩ := h
  exact ⟨before.filter fun entry => entry.1 ≠ name, by rw [replace, replace, List.filter_append, List.append_assoc]⟩

/-- What a call keeps has its own record. -/
theorem kept_last {records kept : Records} {name : String} {record : Json} (hlast : Measured float_repr [(name, record)])
    (h : evict float_repr (replace records name record) = .ok kept) : [(name, record)] <:+ kept := by
  obtain ⟨kept', hkept', hsuffix⟩ := evict_ends float_repr (records.filter fun entry => entry.1 ≠ name) hlast
  rw [replace, hkept'] at h
  cases h
  exact hsuffix

theorem getLast_suffix {part records : Records} (h : part <:+ records) (hne : part ≠ []) : part.getLast? = records.getLast? := by
  obtain ⟨before, rfl⟩ := h
  rw [List.getLast?_append_of_ne_nil _ hne]

/-- A call on which writer and reader agree leaves a ledger that is read back. -/
theorem next_good {state : State} (hgood : Good float_repr state) {call : Call} (hmeets : Meets float_repr state call) :
    Good float_repr (state.next float_repr call) := by
  unfold State.next
  split
  · rename_i directory hwritten
    obtain ⟨hlinked, hfault, path, hpath, kept, hkept, hlast, hdirectory⟩ := record_ok float_repr (congrArg Prod.fst hwritten)
    obtain rfl : directory = _ := (congrArg Prod.snd hwritten).symm.trans hdirectory
    have hsuffix := kept_last float_repr hlast hkept
    have hne : kept ≠ [] := by
      rintro rfl
      exact absurd (List.suffix_nil.mp hsuffix) (List.cons_ne_nil _ _)
    have hstored := (kept_iff float_repr hkept hne).mpr (hmeets hlinked hfault path hpath)
    obtain ⟨hpart, hmeasured, -⟩ := evict_ok float_repr hkept
    have hread : receipts float_repr (some (payload kept)) = kept := receipts_payload float_repr hmeasured.1 hstored
    have hrecent := hpart.trans (replace_suffix hgood.recent (path_name path) (receipt_record call.metadata))
    rw [show call.metadata.path = some path from hpath, Option.elim_some]
    exact
      { recent := by rw [State.receipts, hread]; exact hrecent
        entries := by rw [State.receipts, hread]; exact hmeasured.1
        bytes := fun file hfile => Option.some.inj hfile ▸ hstored
        last := by rw [State.receipts, hread]; exact getLast_suffix hrecent hne }
  · rename_i e directory hraised
    have hsame : directory.ledger = state.directory.ledger :=
      (congrArg (fun result => result.2.ledger) hraised).symm.trans (record_error float_repr (congrArg Prod.fst hraised))
    have hread : receipts float_repr directory.ledger = state.receipts float_repr := congrArg _ hsame
    exact
      { recent := by rw [State.receipts, hread]; exact hgood.recent
        entries := by rw [State.receipts, hread]; exact hgood.entries
        bytes := by rw [hsame]; exact hgood.bytes
        last := by rw [State.receipts, hread]; exact hgood.last }

/-- Where they do not agree, the ledger that is written holds nothing for the reader. -/
theorem next_lost {d : Directory} {call : Call} (h : (record_download float_repr d call).1 = .ok ())
    {path : String} (hpath : call.metadata.path = some path)
    (hnot : ¬ Agrees float_repr (replace (receipts float_repr d.ledger) (path_name path) (receipt_record call.metadata))) :
    receipts float_repr (record_download float_repr d call).2.ledger = [] := by
  obtain ⟨-, -, path', hpath', kept, hkept, hlast, hwritten⟩ := record_ok float_repr h
  obtain rfl : path = path' := Option.some.inj (hpath.symm.trans hpath')
  have hne : kept ≠ [] := by
    rintro rfl
    exact absurd (List.suffix_nil.mp (kept_last float_repr hlast hkept)) (List.cons_ne_nil _ _)
  rw [hwritten]
  exact receipts_nil float_repr (mt (kept_iff float_repr hkept hne).mp hnot)

/-! ### All calls -/

theorem start_good : Good float_repr {} where
  recent := List.suffix_refl _
  entries := Nat.zero_le _
  bytes := nofun
  last := rfl

theorem run_append (before : List Call) (call : Call) : run float_repr (before ++ [call]) = (run float_repr before).next float_repr call := by
  rw [run, List.foldl_append]
  rfl

/-- In a run whose calls agree, every state is good. -/
theorem run_good (calls : List Call) (h : ∀ before call after, calls = before ++ call :: after → Meets float_repr (run float_repr before) call) :
    Good float_repr (run float_repr calls) := by
  induction calls using List.reverseRecOn with
  | nil => exact start_good float_repr
  | append_singleton calls call ih =>
    rw [run_append]
    refine next_good float_repr (ih fun before other after heq => h before other (after ++ [call]) ?_) (h calls call [] rfl)
    rw [heq, List.append_assoc, List.cons_append]

/-- The bounds of the ledger: eviction ends and keeps the new record, a call that raises
changes nothing, in a run whose calls agree every state is good, and after a call that does
not agree nothing is read back. -/
theorem receipts_survive :
    (∀ (records : Records) (name : String) (record : Json), measure float_repr [(name, record)] ≤ MAX_RECEIPT_BYTES →
      ∃ kept, evict float_repr (replace records name record) = .ok kept ∧ [(name, record)] <:+ kept) ∧
    (∀ (d : Directory) (call : Call) (e : Error), (record_download float_repr d call).1 = .error e →
      (record_download float_repr d call).2.ledger = d.ledger) ∧
    (∀ calls : List Call, (∀ before call after, calls = before ++ call :: after → Meets float_repr (run float_repr before) call) →
      ∀ before after, calls = before ++ after → Good float_repr (run float_repr before)) ∧
    (∀ (d : Directory) (call : Call) (path : String), (record_download float_repr d call).1 = .ok () →
      call.metadata.path = some path →
      ¬ Agrees float_repr (replace (receipts float_repr d.ledger) (path_name path) (receipt_record call.metadata)) →
      receipts float_repr (record_download float_repr d call).2.ledger = []) := by
  refine ⟨fun records name record hmeasure => evict_ends float_repr _ ⟨show 1 ≤ MAX_CANDIDATES by decide, hmeasure⟩, ?_, ?_, ?_⟩
  · exact fun d call e hraised => record_error float_repr hraised
  · intro calls h before after heq
    exact run_good float_repr before fun before' call after' heq' => h before' call (after' ++ after) (by rw [heq, heq', List.append_assoc, List.cons_append])
  · exact fun d call path hwritten hpath hnot => next_lost float_repr hwritten hpath hnot

end runs

/-! ### Two downloads -/

/-- The witness has no number with a fraction. -/
def no_floats : Rat → List Char := fun _ => []

def download (path : String) (url : List Char) : Call where
  metadata := { path := some path, url := .str (String.ofList url) }

theorem flatMap_plain {f : Char → List Char} {c : Char} (h : f c = [c]) (n : Nat) : (List.replicate n c).flatMap f = List.replicate n c := by
  rw [List.flatMap_replicate, h, List.flatten_replicate_singleton]

theorem length_le_encode (text : List Char) : text.length ≤ (Utf8.encode text).length := by
  induction text with
  | nil => exact Nat.zero_le _
  | cons c text ih =>
    have hc := c.utf8Size_pos
    rw [Utf8.encode, List.flatMap_cons, List.length_append, String.length_utf8EncodeChar, List.length_cons]
    rw [Utf8.encode] at ih
    omega

/-- The text that the writer measures, around the address. -/
theorem dumps_download (url : List Char) : ∃ before after : List Char, before.length + after.length = 89 ∧
    Json.dumps no_floats (payload [("a", receipt_record (download "a" url).metadata)]) = before ++ (quote url ++ after) := by
  refine ⟨'\x7b' :: (quote "version".toList ++ ':' :: ' ' :: (Json.dumps no_floats (.num 1) ++ ',' :: ' ' :: (quote "resources".toList ++
    ':' :: ' ' :: '\x7b' :: (quote "a".toList ++ ':' :: ' ' :: '\x7b' :: (quote "path".toList ++ ':' :: ' ' :: (quote "a".toList ++
    ',' :: ' ' :: (quote "url".toList ++ [':', ' ']))))))), ',' :: ' ' :: (quote "sha256".toList ++ ':' :: ' ' :: (Json.dumps no_floats .null ++
    ',' :: ' ' :: (quote "bytes".toList ++ ':' :: ' ' :: (Json.dumps no_floats .null ++ ['\x7d', '\x7d', '\x7d'])))), ?_, ?_⟩
  · decide +kernel
  · simp only [payload, receipt_record, download, Json.dumps, Json.dumps_fields, Option.elim_some, String.toList_ofList,
      List.append_assoc, List.cons_append, List.nil_append]

/-- The text of the file, around the address. -/
theorem layout_download (url : List Char) : ∃ before after : List Char, before.length + after.length = 133 ∧
    Json.layout no_floats 0 (payload [("a", receipt_record (download "a" url).metadata)]) = before ++ (quote_wide url ++ after) := by
  refine ⟨'\x7b' :: (newline 1 ++ (quote_wide "version".toList ++ ':' :: ' ' :: (Json.layout no_floats 1 (.num 1) ++ ',' ::
    (newline 1 ++ (quote_wide "resources".toList ++ ':' :: ' ' :: '\x7b' :: (newline 2 ++ (quote_wide "a".toList ++ ':' :: ' ' :: '\x7b' ::
    (newline 3 ++ (quote_wide "path".toList ++ ':' :: ' ' :: (quote_wide "a".toList ++ ',' ::
    (newline 3 ++ (quote_wide "url".toList ++ [':', ' '])))))))))))), ',' :: (newline 3 ++ (quote_wide "sha256".toList ++ ':' :: ' ' ::
    (Json.layout no_floats 3 .null ++ ',' :: (newline 3 ++ (quote_wide "bytes".toList ++ ':' :: ' ' :: (Json.layout no_floats 3 .null ++
    (newline 2 ++ '\x7d' :: (newline 1 ++ '\x7d' :: (newline 0 ++ ['\x7d']))))))))), ?_, ?_⟩
  · decide +kernel
  · simp only [payload, receipt_record, download, Json.layout, Json.layout_fields, Option.elim_some, String.toList_ofList,
      List.append_assoc, List.cons_append, List.nil_append]

theorem one_candidate : ¬ 1 > MAX_CANDIDATES := by decide

theorem record_download_a {url : List Char} (h : (quote url).length ≤ 524199) :
    record_download no_floats {} (download "a" url) =
      (.ok (), { ledger := some (payload [("a", receipt_record (download "a" url).metadata)]) }) := by
  obtain ⟨before, after, hlength, hdumps⟩ := dumps_download url
  have hmeasure : ¬ measure no_floats [("a", receipt_record (download "a" url).metadata)] > MAX_RECEIPT_BYTES := by
    rw [measure, hdumps, List.length_append, List.length_append, MAX_RECEIPT_BYTES]
    omega
  have hname : path_name "a" = "a" := by decide +kernel
  refine record_download_ok no_floats rfl rfl (rfl : _ = some "a") ?_ ?_
  · rwa [hname]
  · rw [hname, show replace (receipts no_floats none) "a" (receipt_record (download "a" url).metadata) =
      [("a", receipt_record (download "a" url).metadata)] from rfl, evict]
    exact if_neg (not_or.mpr ⟨one_candidate, hmeasure⟩)

/-- Another record of `a` replaces the first one; a write between them fails and leaves its temporary file. -/
def downloads : List Call :=
  [download "a" ['u'], { download "b" ['v'] with fault := some (.dump 3 false) }, download "b" ['w'], download "a" ['x']]

theorem download_survives : Good no_floats (run no_floats downloads) := by
  have hstored (records : Records) (h : Stored no_floats records) : Agrees no_floats records :=
    fun part hpart hne _ => (file_size_suffix no_floats hpart hne).trans h
  refine (receipts_survive no_floats).2.2.1 downloads ?_ downloads [] rfl
  intro before call after heq
  obtain ⟨hbefore, hcall⟩ : before = downloads.take before.length ∧ downloads[before.length]? = some call := by
    rw [heq]
    exact ⟨(List.take_left ..).symm, by rw [List.getElem?_append_right (Nat.le_refl _), Nat.sub_self]; rfl⟩
  have hlt : before.length < 4 := (List.getElem?_eq_some_iff.mp hcall).1
  rw [hbefore]
  interval_cases before.length
  all_goals
    cases hcall
    rintro - - path hpath
    cases hpath
    exact hstored _ (show _ ≤ _ by decide +kernel)

theorem quote_replicate (n : Nat) : (quote (List.replicate n 'x')).length = n + 2 := by
  rw [quote, flatMap_plain rfl, List.length_cons, List.length_append, List.length_replicate, List.length_singleton]

theorem quote_wide_replicate (n : Nat) : (quote_wide (List.replicate n 'x')).length = n + 2 := by
  rw [quote_wide, flatMap_plain rfl, List.length_cons, List.length_append, List.length_replicate, List.length_singleton]

/-- The writer measures 524288 bytes, the file has 524332. -/
theorem long_lost {url : List Char} (hquote : (quote url).length = 524199) (hwide : (quote_wide url).length = 524199) :
    ¬ Good no_floats (run no_floats [download "a" url]) := by
  intro hgood
  have hlast := hgood.last
  have hwritten := record_download_a (Nat.le_of_eq hquote)
  have hlarge : ¬ Stored no_floats [("a", receipt_record (download "a" url).metadata)] := by
    obtain ⟨before, after, hlength, hlayout⟩ := layout_download url
    have hbytes := length_le_encode (Json.layout no_floats 0 (payload [("a", receipt_record (download "a" url).metadata)]))
    rw [Stored, Json.file_size, MAX_RECEIPT_BYTES]
    rw [hlayout, List.length_append, List.length_append, ← hlayout] at hbytes
    omega
  have hrun : run no_floats [download "a" url] =
      { directory := { ledger := some (payload [("a", receipt_record (download "a" url).metadata)]) }
        recorded := replace [] (path_name "a") (receipt_record (download "a" url).metadata) } := by
    rw [run, List.foldl_cons, List.foldl_nil, State.next, hwritten]
    rfl
  rw [hrun, State.receipts] at hlast
  simp only at hlast
  rw [receipts_nil no_floats hlarge, replace, List.getLast?_append_of_ne_nil _ (List.cons_ne_nil _ _)] at hlast
  cases hlast

/-- An address of 524197 characters is recorded, and not read back. -/
theorem long_address_lost : ¬ ∀ calls : List Call, Good no_floats (run no_floats calls) :=
  fun h => long_lost (quote_replicate 524197) (quote_wide_replicate 524197) (h _)

end LeanFlow.Receipts
