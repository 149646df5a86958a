import LeanFlow.Runs.Growth
import Mathlib.Data.List.Induction

/-! What a follower gets: the events of the stream, from the first answer on.

A poll loses nothing if no more events came than its limit, and repeats nothing if the
cursor names the last event that was answered. -/
namespace LeanFlow.Runs
open General.Utf8 Source
variable {Event : Type} (C : CharClass) (D : Decoder Event) (limit : Int) (event_types : Text)

/-- The matching events of a stream. -/
def matching (bytes : Bytes) : List Event := ((records C D bytes).getD []).filter (kept C D event_types)

/-- A cursor that finds an event among all those of a stream. -/
def Names (event : Event) (before : List Event) : Prop :=
  D.event_id event ≠ [] ∧ strip C (D.event_id event) = D.event_id event ∧ ∀ other ∈ before, D.event_id other ≠ D.event_id event

/-- What a poll asks of a stream, and of what it was at the poll before: no line makes the
decoder raise; a line that was read unterminated reads the same now; no more events have
come than the limit; and the last matching event of the poll before has an identifier that
finds it. -/
structure Fits (s : Follower Event) : Prop where
  reads : (records C D (s.file.getD [])).isSome
  settled : ∀ polled ∈ s.answers.getLast?, Settled C D polled.1 ((s.file.getD []).drop polled.1.length)
  burst : ∀ polled ∈ s.answers.getLast?, (matching C D event_types (s.file.getD [])).length ≤
    (matching C D event_types polled.1).length + (Arguments.mk limit s.since event_types).limit_events
  named : ∀ polled ∈ s.answers.getLast?, ∀ before event after, records C D polled.1 = some (before ++ event :: after) →
    kept C D event_types event = true → (∀ other ∈ after, kept C D event_types other = false) → Names C D event before

/-! ### One poll -/

theorem last_all {n : Nat} {events : List Event} (h : events.length ≤ n) : last n events = events := by
  rw [last, Nat.sub_eq_zero_of_le h, List.drop_zero]

theorem last_suffix (n : Nat) (events : List Event) : ∃ earlier, events = earlier ++ last n events :=
  ⟨events.take (events.length - n), (List.take_append_drop _ _).symm⟩

theorem getLast_last {n : Nat} (hn : 0 < n) (events : List Event) : (last n events).getLast? = events.getLast? := by
  rw [last, List.getLast?_drop]
  split
  · rename_i h
    rw [List.eq_nil_of_length_eq_zero (show events.length = 0 by omega)]
    rfl
  · rfl

theorem limit_pos (args : Arguments) : 0 < args.limit_events := by
  rw [Arguments.limit_events]
  omega

@[simp] theorem strip_nil : strip C [] = [] := rfl

/-- A poll's answer and the cursor to pass on, of a stream or of none. -/
theorem handle_events_eq {file : Option Bytes} {args : Arguments} {events : List Event}
    (h : records C D (file.getD []) = some events) (hnone : file = none → args.since = []) :
    ∃ answer, handle_events C D file args = some answer ∧
      answer.events = last args.limit_events ((unseen D (strip C args.since) events).filter (kept C D args.event_types)) ∧
      answer.cursor.getD [] = answer.events.getLast?.elim (strip C args.since) D.event_id := by
  cases file with
  | none =>
    have hevents : events = [] := by
      have hnil : records C D [] = some [] := by simp [records, read_lines]
      exact (Option.some.inj (hnil.symm.trans h)).symm
    refine ⟨⟨none, []⟩, rfl, ?_, ?_⟩
    · rw [hnone rfl, hevents]
      simp [unseen, last]
    · rw [hnone rfl]
      rfl
  | some bytes =>
    have hanswer : handle_events C D (some bytes) args =
        some ⟨some ((last args.limit_events ((unseen D (strip C args.since) events).filter (kept C D args.event_types))).getLast?.elim
          (strip C args.since) D.event_id),
          last args.limit_events ((unseen D (strip C args.since) events).filter (kept C D args.event_types))⟩ := by
      rw [handle_events, read_jsonl_eq, show records C D bytes = some events from h]
      rfl
    exact ⟨_, hanswer, rfl, rfl⟩

/-- Behind an event that its identifier names. -/
theorem unseen_named {before after : List Event} {event : Event} (h : Names C D event before) :
    unseen D (D.event_id event) (before ++ event :: after) = after := by
  have hfind : (before ++ event :: after).findIdx? (fun other => D.event_id other = D.event_id event) = some before.length := by
    rw [List.findIdx?_append, List.findIdx?_eq_none_iff.mpr fun other hother => by simpa using h.2.2 other hother]
    simp [List.findIdx?_cons]
  rw [unseen, if_neg h.1, hfind]
  simp

theorem exists_last_kept {p : Event → Bool} {events : List Event} (h : events.filter p ≠ []) :
    ∃ before event after, events = before ++ event :: after ∧ p event = true ∧ ∀ other ∈ after, p other = false := by
  induction events with
  | nil => exact absurd rfl h
  | cons first events ih =>
    by_cases hrest : events.filter p = []
    · refine ⟨[], first, events, rfl, ?_, fun other hother => ?_⟩
      · by_contra hfirst
        exact h (by rw [List.filter_cons_of_neg hfirst, hrest])
      · simpa using List.filter_eq_nil_iff.mp hrest other hother
    · obtain ⟨before, event, after, rfl, hevent, hafter⟩ := ih hrest
      exact ⟨first :: before, event, after, rfl, hevent, hafter⟩

/-! ### The invariant -/

/-- Of the events that match, all behind some first ones were answered, in order; and the
cursor is the last one's. -/
structure Follows (s : Follower Event) : Prop where
  fresh : s.answers = [] → s.since = []
  grown : ∀ polled ∈ s.answers.getLast?, polled.1 <+: s.file.getD []
  read : ∀ polled ∈ s.answers.getLast?, (records C D polled.1).isSome
  cursor : ∀ polled ∈ s.answers.getLast?, s.since = (matching C D event_types polled.1).getLast?.elim [] D.event_id
  complete : ∀ first ∈ s.answers.head?, ∀ polled ∈ s.answers.getLast?, ∃ earlier,
    matching C D event_types first.1 = earlier ++ first.2 ∧
      matching C D event_types polled.1 = earlier ++ (s.answers.map Prod.snd).flatten

variable {C D limit event_types}

theorem matching_nil : matching C D event_types [] = [] := by
  have hnil : records C D [] = some [] := by simp [records, read_lines]
  rw [matching, hnil]
  rfl

theorem matching_eq {bytes : Bytes} {events : List Event} (h : records C D bytes = some events) :
    matching C D event_types bytes = events.filter (kept C D event_types) := by
  rw [matching, h]
  rfl

theorem Follows.no_file {s : Follower Event} (h : Follows C D event_types s) (hnone : s.file = none) : s.since = [] := by
  cases hlast : s.answers.getLast? with
  | none => exact h.fresh (List.getLast?_eq_none_iff.mp hlast)
  | some polled =>
    have hgrown := h.grown polled hlast
    rw [hnone] at hgrown
    rw [h.cursor polled hlast, List.prefix_nil.mp hgrown, matching_nil]
    rfl

theorem append_follows {s : Follower Event} (h : Follows C D event_types s) (bytes : Bytes) :
    Follows C D event_types (act C D limit event_types s (.append bytes)) :=
  ⟨h.fresh, fun polled hpolled => (h.grown polled hpolled).trans (List.prefix_append _ bytes), h.read, h.cursor, h.complete⟩

/-- What a poll returns: the events that have come, or the last ones at the first poll. -/
theorem poll_found {s : Follower Event} (h : Follows C D event_types s) (hfits : Fits C D limit event_types s)
    {events : List Event} (hread : records C D (s.file.getD []) = some events) :
    (s.answers = [] ∧ s.since = [] ∧
        (unseen D (strip C s.since) events).filter (kept C D event_types) = matching C D event_types (s.file.getD [])) ∨
      ∃ polled ∈ s.answers.getLast?, strip C s.since = s.since ∧
        matching C D event_types (s.file.getD []) =
          matching C D event_types polled.1 ++ (unseen D (strip C s.since) events).filter (kept C D event_types) := by
  rw [matching_eq hread]
  cases hlast : s.answers.getLast? with
  | none =>
    have hanswers := List.getLast?_eq_none_iff.mp hlast
    refine .inl ⟨hanswers, h.fresh hanswers, ?_⟩
    rw [h.fresh hanswers, strip_nil, unseen, if_pos rfl]
  | some polled =>
    refine .inr ⟨polled, rfl, ?_⟩
    obtain ⟨seen, hseen⟩ := Option.isSome_iff_exists.mp (h.read polled hlast)
    obtain ⟨more, hmore⟩ := h.grown polled hlast
    have hsettled := hfits.settled polled hlast
    rw [← hmore, List.drop_left] at hsettled
    obtain ⟨new, rfl⟩ := records_grow C D hsettled hseen (hmore ▸ hread)
    have hcursor := h.cursor polled hlast
    rw [matching_eq hseen] at hcursor ⊢
    by_cases hnone : seen.filter (kept C D event_types) = []
    · rw [hnone] at hcursor
      have hsince : s.since = [] := hcursor
      rw [hsince, strip_nil, unseen, if_pos rfl, List.filter_append, hnone]
      exact ⟨rfl, rfl⟩
    · obtain ⟨before, event, after, rfl, hevent, hafter⟩ := exists_last_kept hnone
      have hnames := hfits.named polled hlast before event after hseen hevent hafter
      have hafter' : after.filter (kept C D event_types) = [] := List.filter_eq_nil_iff.mpr fun other hother => by simp [hafter other hother]
      rw [List.filter_append, List.filter_cons_of_pos hevent, hafter', List.getLast?_append] at hcursor
      have hsince : s.since = D.event_id event := hcursor
      rw [hsince, hnames.2.1, List.append_assoc, List.cons_append, unseen_named C D hnames]
      refine ⟨rfl, ?_⟩
      simp [List.filter_append, hafter', hevent]

/-- What a poll adds: the matching events that have come, and the cursor behind them. -/
theorem poll_adds {s : Follower Event} (h : Follows C D event_types s) (hfits : Fits C D limit event_types s) :
    ∃ since found, act C D limit event_types s .poll =
        { s with since := since, answers := s.answers ++ [(s.file.getD [], found)] } ∧
      since = (matching C D event_types (s.file.getD [])).getLast?.elim [] D.event_id ∧
      (s.answers = [] → ∃ earlier, matching C D event_types (s.file.getD []) = earlier ++ found) ∧
      ∀ polled ∈ s.answers.getLast?, matching C D event_types (s.file.getD []) = matching C D event_types polled.1 ++ found := by
  obtain ⟨events, hread⟩ := Option.isSome_iff_exists.mp hfits.reads
  obtain ⟨answer, hanswer, hfound, hcursor⟩ :=
    @handle_events_eq _ C D _ ⟨limit, s.since, event_types⟩ _ hread h.no_file
  simp only at hfound hcursor
  refine ⟨answer.cursor.getD [], answer.events, by rw [act, hanswer], ?_⟩
  rcases poll_found h hfits hread with ⟨hanswers, hsince, hmatching⟩ | ⟨polled, hlast, hstrip, hmatching⟩
  · rw [hmatching] at hfound
    refine ⟨?_, fun _ => hfound ▸ last_suffix _ _, fun polled hpolled => ?_⟩
    · rw [hcursor, hfound, getLast_last (limit_pos _), hsince, strip_nil]
    · rw [hanswers] at hpolled
      cases hpolled
  · have hburst := hfits.burst polled hlast
    rw [hmatching, List.length_append] at hburst
    rw [last_all (by omega)] at hfound
    rw [← hfound] at hmatching
    refine ⟨?_, fun hnil => ?_, fun other hother => ?_⟩
    · rw [hcursor, hstrip, hmatching, h.cursor polled hlast, List.getLast?_append]
      cases answer.events.getLast? <;> rfl
    · rw [hnil] at hlast
      cases hlast
    · obtain rfl : polled = other := Option.some.inj (hlast.symm.trans hother)
      exact hmatching

theorem poll_follows {s : Follower Event} (h : Follows C D event_types s) (hfits : Fits C D limit event_types s) :
    Follows C D event_types (act C D limit event_types s .poll) ∧
      (act C D limit event_types s .poll).answers.length = s.answers.length + 1 := by
  obtain ⟨since, found, hact, hsince, hfirst, hnext⟩ := poll_adds h hfits
  have hlast {polled} (hpolled : polled ∈ (s.answers ++ [(s.file.getD [], found)]).getLast?) : polled = (s.file.getD [], found) := by
    simpa using hpolled.symm
  rw [hact]
  refine ⟨⟨fun hnil => absurd hnil (by simp), fun polled hpolled => ?_, fun polled hpolled => ?_, fun polled hpolled => ?_,
    fun first hhead polled hpolled => ?_⟩, List.length_append⟩
  · obtain rfl := hlast hpolled
    exact List.prefix_refl _
  · exact hlast hpolled ▸ hfits.reads
  · rw [hlast hpolled]
    exact hsince
  · rw [hlast hpolled]
    cases hbefore : s.answers.getLast? with
    | none =>
      have hnil := List.getLast?_eq_none_iff.mp hbefore
      obtain ⟨earlier, hearlier⟩ := hfirst hnil
      rw [hnil] at hhead ⊢
      obtain rfl : (s.file.getD [], found) = first := Option.some.inj hhead
      exact ⟨earlier, hearlier, by simpa using hearlier⟩
    | some before =>
      have hhead' : first ∈ s.answers.head? := by
        cases hanswers : s.answers with
        | nil =>
          rw [hanswers] at hbefore
          cases hbefore
        | cons answer answers =>
          rw [hanswers] at hhead
          exact hhead
      obtain ⟨earlier, hfirst, hcomplete⟩ := h.complete first hhead' before hbefore
      refine ⟨earlier, hfirst, ?_⟩
      rw [hnext before hbefore, hcomplete]
      simp

/-! ### Runs -/

/-- In a run all of whose polls find a stream that fits, every poll is answered, and what
the first answer left out and all the answers are the matching events, in order. -/
theorem follow_complete (actions : List Action)
    (hfits : ∀ before after, actions = before ++ .poll :: after → Fits C D limit event_types (follow C D limit event_types before)) :
    let s := follow C D limit event_types actions
    s.answers.length = (actions.filter Action.is_poll).length ∧
      ∀ first ∈ s.answers.head?, ∀ polled ∈ s.answers.getLast?, ∃ earlier,
        matching C D event_types first.1 = earlier ++ first.2 ∧
          matching C D event_types polled.1 = earlier ++ (s.answers.map Prod.snd).flatten := by
  have hfollows : Follows C D event_types (follow C D limit event_types actions) ∧
      (follow C D limit event_types actions).answers.length = (actions.filter Action.is_poll).length := by
    induction actions using List.reverseRecOn with
    | nil => exact ⟨⟨fun _ => rfl, nofun, nofun, nofun, nofun⟩, rfl⟩
    | append_singleton actions action ih =>
      obtain ⟨hfollows, hlength⟩ := ih fun before after heq => hfits before (after ++ [action]) (by rw [heq]; simp)
      rw [follow, List.foldl_append, List.filter_append, List.length_append, ← hlength]
      cases action with
      | append bytes => exact ⟨@append_follows _ C D limit event_types _ hfollows bytes, rfl⟩
      | poll => exact poll_follows hfollows (hfits actions [] rfl)
  exact ⟨hfollows.2, hfollows.1.complete⟩

/-! ### A stream of three events -/

def object_line (id : Char) : Text := "\x7b\"event_id\":\"".toList ++ [id] ++ "\"\x7d".toList

/-- A decoder that knows three objects. -/
def sample : Decoder Char where
  loads line :=
    if line = object_line 'a' then .object 'a'
    else if line = object_line 'b' then .object 'b'
    else if line = object_line 'c' then .object 'c'
    else .decode_error
  event_id event := [event]
  type _ := []

def stream (ids : List Char) : Bytes := encode (ids.flatMap fun id => object_line id ++ ['\n'])

theorem records_stream {ids : List Char} (h : ∀ id ∈ ids, read_line CharClass.ascii sample (object_line id) = some [id])
    (hline : ∀ id ∈ ids, (object_line id).any line_end = false) : records CharClass.ascii sample (stream ids) = some ids := by
  have hdecode := decode_encode (ids.flatMap fun id => object_line id ++ ['\n']) []
  rw [List.append_nil, decode_nil, List.append_nil] at hdecode
  rw [stream, records, hdecode]
  clear hdecode
  induction ids with
  | nil => rfl
  | cons id ids ih =>
    rw [List.flatMap_cons, List.append_assoc, List.singleton_append,
      List.splitOnP_append_cons_of_forall_mem (fun c hc => by simpa using List.any_eq_false.mp (hline id List.mem_cons_self) c hc) '\n' rfl, read_lines, h id List.mem_cons_self,
      ih (fun other hother => h other (List.mem_cons_of_mem id hother)) fun other hother => hline other (List.mem_cons_of_mem id hother)]
    rfl

theorem records_sample {ids : List Char} (h : ∀ id ∈ ids, id ∈ ['a', 'b', 'c']) :
    records CharClass.ascii sample (stream ids) = some ids := by
  refine records_stream (fun id hid => ?_) fun id hid => ?_
  · have hmem := h id hid
    simp only [List.mem_cons, List.not_mem_nil, or_false] at hmem
    rcases hmem with rfl | rfl | rfl <;> rfl
  · have hmem := h id hid
    simp only [List.mem_cons, List.not_mem_nil, or_false] at hmem
    rcases hmem with rfl | rfl | rfl <;> rfl

theorem stream_append (a b : List Char) : stream (a ++ b) = stream a ++ stream b := by
  rw [stream, List.flatMap_append, encode, List.flatMap_append]
  rfl

theorem unterminated_stream (ids : List Char) (id : Char) : unterminated (stream (ids ++ [id])) = [] := by
  have hend : stream (ids ++ [id]) = stream ids ++ encode (object_line id) ++ [10] := by
    rw [stream_append, List.append_assoc]
    congr 1
    rw [stream, List.flatMap_singleton, encode, List.flatMap_append]
    rfl
  rw [unterminated, hend, List.reverse_append]
  rfl

theorem fits_first : Fits CharClass.ascii sample 0 [] ⟨some (stream ['a']), [], []⟩ := by
  refine ⟨?_, nofun, nofun, nofun⟩
  show (records CharClass.ascii sample (stream ['a'])).isSome
  rw [records_sample (by simp)]
  rfl

theorem fits_second : Fits CharClass.ascii sample 0 [] ⟨some (stream ['a', 'b']), ['a'], [(stream ['a'], ['a'])]⟩ := by
  have ha : records CharClass.ascii sample (stream ['a']) = some ['a'] := records_sample (by simp)
  have hab : records CharClass.ascii sample (stream ['a', 'b']) = some ['a', 'b'] := records_sample (by simp)
  refine ⟨?_, fun polled hpolled => ?_, fun polled hpolled => ?_, fun polled hpolled before event after hevents hkept hafter => ?_⟩
  · show (records CharClass.ascii sample (stream ['a', 'b'])).isSome
    rw [hab]
    rfl
  · obtain rfl : (stream ['a'], ['a']) = polled := Option.some.inj hpolled
    intro event hevent
    rw [show unterminated (stream ['a']) = [] from unterminated_stream [] 'a', decode_nil, read_line_nil] at hevent
    cases hevent
  · obtain rfl : (stream ['a'], ['a']) = polled := Option.some.inj hpolled
    show (matching CharClass.ascii sample [] (stream ['a', 'b'])).length ≤ _
    rw [matching_eq hab, matching_eq ha]
    decide
  · obtain rfl : (stream ['a'], ['a']) = polled := Option.some.inj hpolled
    rw [ha] at hevents
    have hevents := Option.some.inj hevents
    cases before with
    | nil =>
      obtain ⟨rfl, -⟩ := List.cons.inj hevents
      exact ⟨List.cons_ne_nil _ _, rfl, nofun⟩
    | cons first before => simp at hevents

/-- Two events, each followed by a poll. -/
theorem two_events_followed :
    let s := follow CharClass.ascii sample 0 [] [.append (stream ['a']), .poll, .append (stream ['b']), .poll]
    s.answers.length = 2 ∧
      ∀ first ∈ s.answers.head?, ∀ polled ∈ s.answers.getLast?, ∃ earlier,
        matching CharClass.ascii sample [] first.1 = earlier ++ first.2 ∧
          matching CharClass.ascii sample [] polled.1 = earlier ++ (s.answers.map Prod.snd).flatten := by
  refine follow_complete [.append (stream ['a']), .poll, .append (stream ['b']), .poll] fun before after heq => ?_
  have hone : follow CharClass.ascii sample 0 [] [.append (stream ['a'])] = ⟨some (stream ['a']), [], []⟩ := rfl
  have htwo : follow CharClass.ascii sample 0 [] [.append (stream ['a']), .poll, .append (stream ['b'])] =
      ⟨some (stream ['a', 'b']), ['a'], [(stream ['a'], ['a'])]⟩ := by
    have hanswer : handle_events CharClass.ascii sample (some (stream ['a'])) ⟨0, [], []⟩ = some ⟨some ['a'], ['a']⟩ := by
      rw [handle_events, read_jsonl_eq, @records_sample ['a'] (by simp)]
      rfl
    have hpoll : act CharClass.ascii sample 0 [] ⟨some (stream ['a']), [], []⟩ .poll = ⟨some (stream ['a']), ['a'], [(stream ['a'], ['a'])]⟩ := by
      rw [act, hanswer]
      rfl
    rw [show stream ['a', 'b'] = stream ['a'] ++ stream ['b'] from stream_append ['a'] ['b'], follow, List.foldl_cons, List.foldl_cons,
      List.foldl_cons, List.foldl_nil, show act CharClass.ascii sample 0 [] {} (.append (stream ['a'])) = ⟨some (stream ['a']), [], []⟩ from rfl,
      hpoll]
    rfl
  rcases before with _ | ⟨first, _ | ⟨second, _ | ⟨third, _ | ⟨fourth, before⟩⟩⟩⟩
  · cases heq
  · obtain ⟨rfl, -⟩ := List.cons.inj heq
    exact hone ▸ fits_first
  · simp at heq
  · simp only [List.cons_append, List.nil_append, List.cons.injEq] at heq
    obtain ⟨rfl, rfl, rfl, -⟩ := heq
    exact htwo ▸ fits_second
  · simp at heq

/-- The middle of three events comes with the last and is never returned. -/
theorem burst_lost : ¬∀ (limit : Int) (event_types : Text) (actions : List Action),
    let s := follow CharClass.ascii sample limit event_types actions
    ∀ first ∈ s.answers.head?, ∀ polled ∈ s.answers.getLast?, ∃ earlier,
      matching CharClass.ascii sample event_types first.1 = earlier ++ first.2 ∧
        matching CharClass.ascii sample event_types polled.1 = earlier ++ (s.answers.map Prod.snd).flatten := by
  intro h
  have ha : records CharClass.ascii sample (stream ['a']) = some ['a'] := records_sample (by simp)
  have habc : records CharClass.ascii sample (stream ['a', 'b', 'c']) = some ['a', 'b', 'c'] := records_sample (by simp)
  have hfirst : handle_events CharClass.ascii sample (some (stream ['a'])) ⟨1, [], []⟩ = some ⟨some ['a'], ['a']⟩ := by
    rw [handle_events, read_jsonl_eq, ha]
    rfl
  have hsecond : handle_events CharClass.ascii sample (some (stream ['a', 'b', 'c'])) ⟨1, ['a'], []⟩ = some ⟨some ['c'], ['c']⟩ := by
    rw [handle_events, read_jsonl_eq, habc]
    rfl
  have hrun : (follow CharClass.ascii sample 1 [] [.append (stream ['a']), .poll, .append (stream ['b', 'c']), .poll]).answers =
      [(stream ['a'], ['a']), (stream ['a', 'b', 'c'], ['c'])] := by
    have hone : act CharClass.ascii sample 1 [] ⟨some (stream ['a']), [], []⟩ .poll = ⟨some (stream ['a']), ['a'], [(stream ['a'], ['a'])]⟩ := by
      rw [act, hfirst]
      rfl
    have htwo : act CharClass.ascii sample 1 [] ⟨some (stream ['a', 'b', 'c']), ['a'], [(stream ['a'], ['a'])]⟩ .poll =
        ⟨some (stream ['a', 'b', 'c']), ['c'], [(stream ['a'], ['a']), (stream ['a', 'b', 'c'], ['c'])]⟩ := by
      rw [act, hsecond]
      rfl
    have happend : act CharClass.ascii sample 1 [] ⟨some (stream ['a']), ['a'], [(stream ['a'], ['a'])]⟩ (.append (stream ['b', 'c'])) =
        ⟨some (stream ['a', 'b', 'c']), ['a'], [(stream ['a'], ['a'])]⟩ := by
      rw [show stream ['a', 'b', 'c'] = stream ['a'] ++ stream ['b', 'c'] from stream_append ['a'] ['b', 'c']]
      rfl
    rw [follow, List.foldl_cons, List.foldl_cons, List.foldl_cons, List.foldl_cons, List.foldl_nil,
      show act CharClass.ascii sample 1 [] {} (.append (stream ['a'])) = ⟨some (stream ['a']), [], []⟩ from rfl, hone, happend, htwo]
  obtain ⟨earlier, hearlier, hall⟩ := h 1 [] [.append (stream ['a']), .poll, .append (stream ['b', 'c']), .poll]
    (stream ['a'], ['a']) (by rw [hrun]; rfl) (stream ['a', 'b', 'c'], ['c']) (by rw [hrun]; rfl)
  rw [hrun] at hall
  rw [matching_eq ha] at hearlier
  rw [matching_eq habc] at hall
  obtain rfl : earlier = [] := List.append_cancel_right (hearlier.symm.trans (show _ = [] ++ ['a'] from rfl))
  exact absurd hall (by decide)

end LeanFlow.Runs
