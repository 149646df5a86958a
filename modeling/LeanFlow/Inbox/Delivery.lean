import LeanFlow.Inbox.Readers

/-! What the readers of an inbox deliver, in every run.

A file is the lines that were read and a rest that was not (`Read`), and what a reader has
returned is what those lines say (`deliver`, `taken`). A read of lines it can take goes on
to the last complete line; a restart goes back to a position of the same kind. -/
namespace LeanFlow.Inbox
open General

variable {reader : Reader}

/-! ### Lines -/

def IsLine (line : Bytes) : Prop := ∃ body : Bytes, (10 : UInt8) ∉ body ∧ line = body ++ [10]

theorem complete_cons_line {body : Bytes} (h : (10 : UInt8) ∉ body) (rest : Bytes) :
    complete (body ++ 10 :: rest) = (body ++ [10]) :: complete rest := by
  induction body with
  | nil => simp [complete]
  | cons b body ih =>
    obtain ⟨hb, hbody⟩ := not_or.mp (List.mem_cons.not.mp h)
    rw [List.cons_append, complete, if_neg (Ne.symm hb), ih hbody]
    rfl

theorem complete_flatten_append {lines : List Bytes} (h : ∀ line ∈ lines, IsLine line) (rest : Bytes) :
    complete (lines.flatten ++ rest) = lines ++ complete rest := by
  induction lines with
  | nil => rfl
  | cons line lines ih =>
    obtain ⟨body, hbody, rfl⟩ := h line (List.mem_cons_self ..)
    rw [List.flatten_cons, List.append_assoc, List.append_assoc, List.singleton_append, complete_cons_line hbody,
      ih fun line hline => h line (List.mem_cons_of_mem _ hline)]
    rfl

theorem complete_of_not_mem {tail : Bytes} (h : (10 : UInt8) ∉ tail) : complete tail = [] := by
  induction tail with
  | nil => rfl
  | cons b tail ih =>
    obtain ⟨hb, htail⟩ := not_or.mp (List.mem_cons.not.mp h)
    rw [complete, if_neg (Ne.symm hb), ih htail]

/-- A file is its complete lines and a part of one. -/
theorem exists_lines (bytes : Bytes) : ∃ (lines : List Bytes) (tail : Bytes), bytes = lines.flatten ++ tail ∧ (∀ line ∈ lines, IsLine line) ∧ (10 : UInt8) ∉ tail := by
  induction bytes with
  | nil => exact ⟨[], [], rfl, fun _ h => absurd h List.not_mem_nil, List.not_mem_nil⟩
  | cons b bytes ih =>
    obtain ⟨lines, tail, rfl, hlines, htail⟩ := ih
    by_cases hb : b = 10
    · subst hb
      exact ⟨[10] :: lines, tail, rfl, List.forall_mem_cons.mpr ⟨⟨[], List.not_mem_nil, rfl⟩, hlines⟩, htail⟩
    · cases lines with
      | nil => exact ⟨[], b :: tail, rfl, hlines, fun h => (List.mem_cons.mp h).elim (fun heq => hb heq.symm) htail⟩
      | cons line lines =>
        obtain ⟨⟨body, hbody, rfl⟩, hrest⟩ := List.forall_mem_cons.mp hlines
        refine ⟨(b :: (body ++ [10])) :: lines, tail, rfl, List.forall_mem_cons.mpr ⟨⟨b :: body, ?_, rfl⟩, hrest⟩, htail⟩
        exact fun h => (List.mem_cons.mp h).elim (fun heq => hb heq.symm) hbody

theorem isLine_of_mem_complete {bytes line : Bytes} (h : line ∈ complete bytes) : IsLine line := by
  obtain ⟨lines, tail, rfl, hlines, htail⟩ := exists_lines bytes
  rw [complete_flatten_append hlines, complete_of_not_mem htail, List.append_nil] at h
  exact hlines line h

/-- Without carriage returns the lines of text are the lines. -/
theorem universal_eq {bytes : Bytes} (h : (13 : UInt8) ∉ bytes) : universal bytes = complete bytes := by
  induction bytes using universal.induct with
  | case1 => rfl
  | case2 b hb =>
    have hb' : b = 10 := hb.resolve_right fun heq => h (by simp [heq])
    subst hb'
    rfl
  | case3 b hb =>
    obtain ⟨hten, hthirteen⟩ := not_or.mp hb
    simp [universal, complete, hten, hthirteen]
  | case4 b c rest hboth => exact absurd hboth.1 fun heq => h (by simp [heq])
  | case5 b c rest hboth hb ih =>
    have hb' : b = 10 := hb.resolve_right fun heq => h (by simp [heq])
    subst hb'
    rw [universal, if_neg (by simp), if_pos (Or.inl rfl), complete, if_pos rfl,
      ih fun hmem => h (List.mem_cons_of_mem _ hmem)]
  | case6 b c rest hboth hb hnone ih =>
    obtain ⟨hten, -⟩ := not_or.mp hb
    rw [universal, if_neg hboth, if_neg hb, complete, if_neg hten, ih fun hmem => h (List.mem_cons_of_mem _ hmem)]
  | case7 b c rest hboth hb line lines hsome ih =>
    obtain ⟨hten, -⟩ := not_or.mp hb
    rw [universal, if_neg hboth, if_neg hb, complete, if_neg hten, ih fun hmem => h (List.mem_cons_of_mem _ hmem)]

theorem translate_line {line : Bytes} (h : IsLine line) (hreturn : (13 : UInt8) ∉ line) : translate line = line := by
  obtain ⟨body, hbody, rfl⟩ := h
  unfold translate
  rw [List.takeWhile_append_of_pos]
  · simp
  · intro b hb
    have hten : b ≠ 10 := fun heq => hbody (heq ▸ hb)
    have hthirteen : b ≠ 13 := fun heq => hreturn (heq ▸ List.mem_append_left _ hb)
    simp [hten, hthirteen]

/-! ### What the lines say -/

def plan_offset (reader : Reader) : Nat := if reader.orchestrator then reader.inbox_offset.getD 0 else 0

/-- The messages of the lines for the guidance reader, the first line starting at `start`. -/
def deliver (reader : Reader) (start : Nat) : List Bytes → List Message
  | [] => []
  | line :: lines =>
    (match reader.loads line with
      | .object message => if addressed reader (plan_offset reader) (start + line.length) message then [message] else []
      | _ => []) ++ deliver reader (start + line.length) lines

/-- The messages of the lines for the controller. -/
def taken (reader : Reader) (lines : List Bytes) : List Message :=
  lines.filterMap fun line =>
    match reader.loads_text line with
    | .object message => some message
    | _ => none

theorem deliver_append (start : Nat) (a b : List Bytes) :
    deliver reader start (a ++ b) = deliver reader start a ++ deliver reader (start + a.flatten.length) b := by
  induction a generalizing start with
  | nil => rfl
  | cons line a ih =>
    rw [List.cons_append, deliver, deliver, ih, List.append_assoc, List.flatten_cons, List.length_append, Nat.add_assoc]

theorem taken_append (a b : List Bytes) : taken reader (a ++ b) = taken reader a ++ taken reader b := List.filterMap_append

/-- Some lines of the file were read, and have been returned. -/
structure Read (file : Bytes) (offset : Nat) (lines : List Bytes) : Prop where
  whole : ∀ line ∈ lines, IsLine line
  file_eq : ∃ rest, file = lines.flatten ++ rest
  offset_eq : offset = lines.flatten.length

theorem Read.drop {file : Bytes} {offset : Nat} {lines : List Bytes} (h : Read file offset lines) :
    complete file = lines ++ complete (file.drop offset) := by
  obtain ⟨rest, rfl⟩ := h.file_eq
  rw [h.offset_eq, List.drop_left, complete_flatten_append h.whole]

theorem Read.append {file : Bytes} {offset : Nat} {lines : List Bytes} (h : Read file offset lines) (more : Bytes) :
    Read (file ++ more) offset lines := by
  obtain ⟨rest, rfl⟩ := h.file_eq
  exact ⟨h.whole, ⟨rest ++ more, by rw [List.append_assoc]⟩, h.offset_eq⟩

/-- After the rest has been read, all complete lines have. -/
theorem Read.all {file : Bytes} {offset : Nat} {lines : List Bytes} (h : Read file offset lines) :
    Read file (offset + (complete (file.drop offset)).flatten.length) (complete file) := by
  refine ⟨fun line hline => isLine_of_mem_complete hline, ?_, ?_⟩
  · obtain ⟨all, tail, rfl, hall, htail⟩ := exists_lines file
    rw [complete_flatten_append hall, complete_of_not_mem htail, List.append_nil]
    exact ⟨tail, rfl⟩
  · rw [h.drop, List.flatten_append, List.length_append, ← h.offset_eq]

/-! ### The guidance reader -/

theorem encodable_take {item : Item} (h : encodable item = true) : encodable ⟨item.id.take 128, item.message.take 8192⟩ = true := by
  simp only [encodable, Bool.and_eq_true, Bool.not_eq_true', List.any_eq_false] at h ⊢
  exact ⟨fun c hc => h.1 c (List.mem_of_mem_take hc), fun c hc => h.2 c (List.mem_of_mem_take hc)⟩

theorem drop_oldest_suffix (history : List Item) (omitted : Nat) : (drop_oldest history omitted).1 <:+ history := by
  induction history generalizing omitted with
  | nil => exact List.suffix_rfl
  | cons item history ih =>
    unfold drop_oldest
    split
    · exact (ih (omitted + 1)).trans (List.suffix_cons item history)
    · exact List.suffix_rfl

def Savable (g : GuidanceInbox) : Prop := ∀ item ∈ g.history, encodable item = true

theorem remember_savable {g : GuidanceInbox} {item : Item} (h : Savable g)
    (hitem : encodable ⟨item.id.take 128, item.message.take 8192⟩ = true) : Savable (remember g item) := by
  intro kept hkept
  have hmem := (drop_oldest_suffix (g.history ++ [⟨item.id.take 128, item.message.take 8192⟩]) g.omitted).subset hkept
  rcases List.mem_append.mp hmem with hold | hnew
  · exact h kept hold
  · rw [List.mem_singleton.mp hnew]
    exact hitem

theorem foldl_remember {items : List Item} (hitems : ∀ item ∈ items, encodable item = true) {g : GuidanceInbox} (h : Savable g) :
    Savable (items.foldl remember g) ∧ (items.foldl remember g).offset = g.offset ∧
      (items.foldl remember g).plan_offset = g.plan_offset := by
  induction items generalizing g with
  | nil => exact ⟨h, rfl, rfl⟩
  | cons item items ih =>
    obtain ⟨hitem, hrest⟩ := List.forall_mem_cons.mp hitems
    exact ih hrest (remember_savable h (encodable_take hitem))

theorem save_eq {saved : Bool} {g : GuidanceInbox} {position : Position} (h : save saved g = some position) :
    position = ⟨g.offset, some (g.history, g.omitted)⟩ ∧ Savable g := by
  unfold save at h
  split at h
  · rename_i hsaved
    exact ⟨(Option.some.inj h).symm, List.all_eq_true.mp (Bool.and_eq_true_iff.mp hsaved).2⟩
  · cases h

theorem save_savable {g : GuidanceInbox} (h : Savable g) : save true g = some ⟨g.offset, some (g.history, g.omitted)⟩ := by
  unfold save
  rw [if_pos]
  exact Bool.and_eq_true_iff.mpr ⟨rfl, List.all_eq_true.mpr h⟩

/-- A poll over lines that it can take returns what they say, and stands behind the last one. -/
theorem poll_lines_spec {lines : List Bytes} {g : GuidanceInbox} (hfit : Fit reader g.plan_offset g.offset lines)
    (hplan : g.plan_offset = plan_offset reader) (h : Savable g) (result : List Message) :
    ∃ after, poll_lines reader g result lines = (some (result ++ deliver reader g.offset lines), after) ∧
      after.offset = g.offset + lines.flatten.length ∧ after.plan_offset = g.plan_offset ∧ Savable after := by
  induction lines generalizing g result with
  | nil => exact ⟨g, by rw [poll_lines, deliver, List.append_nil], rfl, rfl, h⟩
  | cons line lines ih =>
    obtain ⟨⟨hlength, hloads, hencodable⟩, hrest⟩ := hfit
    rw [poll_lines, if_neg (not_lt.mpr hlength), deliver, List.flatten_cons, List.length_append, ← Nat.add_assoc]
    cases hline : reader.loads line with
    | recursion_error => exact absurd hline hloads
    | value_error => exact ih (g := { g with offset := g.offset + line.length }) hrest hplan h result
    | other => exact ih (g := { g with offset := g.offset + line.length }) hrest hplan h result
    | object message =>
      simp only
      rw [← hplan]
      by_cases haddressed : addressed reader g.plan_offset (g.offset + line.length) message = true
      · rw [if_pos haddressed, if_pos haddressed, ← List.append_assoc]
        exact ih (g := remember { g with offset := g.offset + line.length } ⟨message.id, message.message⟩) hrest hplan
          (remember_savable h (hencodable message hline haddressed)) (result ++ [message])
      · rw [if_neg haddressed, if_neg haddressed, List.nil_append]
        exact ih (g := { g with offset := g.offset + line.length }) hrest hplan h result

/-! ### The controller's reader -/

theorem message_lines_spec {lines : List Bytes} (hloads : ∀ line ∈ lines, reader.loads_text line ≠ .recursion_error)
    (htranslate : ∀ line ∈ lines, translate line = line) (offset : Nat) (result : List Message) :
    message_lines reader offset result lines = (some (result ++ taken reader lines), offset + lines.flatten.length) := by
  induction lines generalizing offset result with
  | nil => simp [message_lines, taken]
  | cons line lines ih =>
    obtain ⟨hline, hrest⟩ := List.forall_mem_cons.mp hloads
    obtain ⟨hsame, htranslate⟩ := List.forall_mem_cons.mp htranslate
    rw [message_lines, hsame, List.flatten_cons, List.length_append, ← Nat.add_assoc]
    cases hread : reader.loads_text line with
    | recursion_error => exact absurd hread hline
    | value_error => simpa [taken, hread] using ih hrest htranslate (offset + line.length) result
    | other => simpa [taken, hread] using ih hrest htranslate (offset + line.length) result
    | object message => simpa [taken, hread] using ih hrest htranslate (offset + line.length) (result ++ [message])

theorem messages_spec {decoded offset : Nat} {rest : Bytes} (hvalid : valid_utf8 rest = true) (hreturn : (13 : UInt8) ∉ rest)
    (hloads : ∀ line ∈ complete rest, reader.loads_text line ≠ .recursion_error) :
    messages reader decoded offset rest = (some (taken reader (complete rest)), offset + (complete rest).flatten.length) := by
  obtain ⟨lines, tail, hrest, hlines, htail⟩ := exists_lines rest
  have hcomplete : complete rest = lines := by
    rw [hrest, complete_flatten_append hlines, complete_of_not_mem htail, List.append_nil]
  rw [messages, if_pos hvalid, universal_eq hreturn, message_lines_spec hloads, List.nil_append]
  intro line hline
  refine translate_line (isLine_of_mem_complete hline) fun hmem => hreturn ?_
  rw [hrest]
  exact List.mem_append_left _ (List.mem_flatten.mpr ⟨line, hcomplete ▸ hline, hmem⟩)

/-! ### Runs -/

/-- What has been returned, and where both readers stand. -/
structure Kept (reader : Reader) (w : World) : Prop where
  inbox : ∀ g, w.inbox = some g → w.position = some ⟨g.offset, some (g.history, g.omitted)⟩ ∧ g.plan_offset = plan_offset reader
  unread : w.position = none → w.returned = []
  position : ∀ position, w.position = some position → ∃ lines history omitted, position.messages = some (history, omitted) ∧
    (∀ item ∈ history, encodable item = true) ∧ Read (w.file.getD []) position.offset lines ∧ w.returned = deliver reader 0 lines
  store : ∀ s, w.store = some s ∨ s = w.saved → ∃ lines, Read (w.file.getD []) s.inbox_offset lines ∧ s.taken = taken reader lines

theorem read_nil (file : Bytes) : Read file 0 [] := ⟨fun _ h => absurd h List.not_mem_nil, ⟨file, rfl⟩, rfl⟩

theorem initial_kept : Kept reader .initial where
  inbox _ h := by cases h
  unread _ := rfl
  position _ h := by cases h
  store s h := by
    rcases h with h | rfl
    · cases h
    · exact ⟨[], read_nil _, rfl⟩

theorem Kept.inbox_savable {w : World} (h : Kept reader w) {g : GuidanceInbox} (hg : w.inbox = some g) :
    Savable g ∧ ∃ lines, Read (w.file.getD []) g.offset lines ∧ w.returned = deliver reader 0 lines := by
  obtain ⟨lines, history, omitted, hmessages, hsavable, hread, hreturned⟩ := h.position _ (h.inbox g hg).1
  obtain ⟨rfl, rfl⟩ := Prod.ext_iff.mp (Option.some.inj hmessages)
  exact ⟨hsavable, lines, hread, hreturned⟩

theorem append_kept {w : World} (h : Kept reader w) (bytes : Bytes) :
    Kept reader { w with file := some (w.file.getD [] ++ bytes) } where
  inbox := h.inbox
  unread := h.unread
  position position hposition := by
    obtain ⟨lines, history, omitted, hmessages, hsavable, hread, hreturned⟩ := h.position position hposition
    exact ⟨lines, history, omitted, hmessages, hsavable, hread.append bytes, hreturned⟩
  store s hs := by
    obtain ⟨lines, hread, htaken⟩ := h.store s hs
    exact ⟨lines, hread.append bytes, htaken⟩

/-- A poll that can take what is there returns all that the file says. -/
theorem poll_kept {w : World} (h : Kept reader w) {g : GuidanceInbox} {file : Bytes} (hg : w.inbox = some g)
    (hfile : w.file = some file) (hfit : Fit reader g.plan_offset g.offset (complete (file.drop g.offset))) :
    Kept reader (poll reader true g file w) ∧ (poll reader true g file w).file = w.file ∧
      (poll reader true g file w).returned = deliver reader 0 (complete file) := by
  obtain ⟨hposition, hplan⟩ := h.inbox g hg
  obtain ⟨hsavable, lines, hread, hreturned⟩ := h.inbox_savable hg
  rw [hfile, Option.getD_some] at hread
  obtain ⟨after, hpoll, hoffset, hafter, hsaved⟩ := poll_lines_spec hfit hplan hsavable []
  have hall : w.returned ++ deliver reader g.offset (complete (file.drop g.offset)) = deliver reader 0 (complete file) := by
    rw [hread.drop, deliver_append, ← hreturned, Nat.zero_add, ← hread.offset_eq]
  have heq : poll reader true g file w = { w with
      inbox := some after
      position := some ⟨after.offset, some (after.history, after.omitted)⟩
      returned := deliver reader 0 (complete file) } := by
    unfold poll
    rw [hpoll, ← hall]
    simp only [save_savable hsaved, List.nil_append]
  rw [heq]
  refine ⟨⟨?_, ?_, ?_, h.store⟩, rfl, rfl⟩
  · intro g' hg'
    cases hg'
    exact ⟨rfl, hafter.trans hplan⟩
  · exact fun hnone => nomatch hnone
  · intro position hp
    cases hp
    refine ⟨complete file, after.history, after.omitted, rfl, hsaved, ?_, rfl⟩
    rw [hoffset]
    simpa only [hfile, Option.getD_some] using hread.all

theorem init_plan_offset (position : Option Position) (file : Option Bytes)
    (hoffset : reader.orchestrator = true → reader.inbox_offset ≠ none)
    (hsavable : ∀ p history omitted, position = some p → p.messages = some (history, omitted) → ∀ item ∈ history, encodable item = true) :
    Savable (GuidanceInbox.init reader position file) ∧
      (GuidanceInbox.init reader position file).plan_offset = plan_offset reader ∧
      (GuidanceInbox.init reader position file).offset =
        ((position.bind fun p => p.messages.map fun _ => p.offset).getD 0) := by
  have hplan : (if reader.orchestrator then reader.inbox_offset.getD (file.elim 0 List.length) else 0) = plan_offset reader := by
    unfold plan_offset
    split
    · rename_i horchestrator
      obtain ⟨offset, hsome⟩ := Option.ne_none_iff_exists'.mp (hoffset horchestrator)
      rw [hsome]
      rfl
    · rfl
  have hempty : Savable ({ plan_offset := plan_offset reader } : GuidanceInbox) := fun _ h => absurd h List.not_mem_nil
  unfold GuidanceInbox.init
  rw [hplan]
  rcases position with _ | ⟨offset, _ | ⟨history, omitted⟩⟩
  · exact ⟨hempty, rfl, rfl⟩
  · exact ⟨hempty, rfl, rfl⟩
  · obtain ⟨hkept, hkept_offset, hkept_plan⟩ := foldl_remember (hsavable _ history omitted rfl rfl)
      (g := { offset := offset, omitted := omitted, plan_offset := plan_offset reader }) fun _ h => absurd h List.not_mem_nil
    exact ⟨hkept, hkept_plan, hkept_offset⟩

theorem restart_inbox_kept {w : World} (h : Kept reader w) (saved : Bool)
    (hoffset : reader.orchestrator = true → reader.inbox_offset ≠ none) : Kept reader (restart_inbox reader saved w) := by
  have hsavable : ∀ p history omitted, w.position = some p → p.messages = some (history, omitted) →
      ∀ item ∈ history, encodable item = true := by
    intro p history omitted hp hmessages
    obtain ⟨_, history', omitted', hmessages', hencodable, -⟩ := h.position p hp
    obtain ⟨rfl, rfl⟩ := Prod.ext_iff.mp (Option.some.inj (hmessages.symm.trans hmessages'))
    exact hencodable
  obtain ⟨hinit, hplan, hstart⟩ := init_plan_offset w.position w.file hoffset hsavable
  unfold restart_inbox
  cases hsave : save saved (GuidanceInbox.init reader w.position w.file) with
  | none =>
    simp only [hsave]
    exact ⟨fun _ hnone => (nomatch hnone), h.unread, h.position, h.store⟩
  | some position =>
    simp only [hsave]
    obtain ⟨rfl, -⟩ := save_eq hsave
    refine ⟨?_, fun hnone => (nomatch hnone), ?_, h.store⟩
    · intro g hg
      cases hg
      exact ⟨rfl, hplan⟩
    · intro p hp
      cases hp
      rcases Option.eq_none_or_eq_some w.position with hposition | ⟨old, hposition⟩
      · refine ⟨[], _, _, rfl, hinit, ?_, h.unread hposition⟩
        rw [hposition] at hstart ⊢
        exact hstart ▸ read_nil _
      · obtain ⟨lines, history, omitted, hmessages, -, hread, hreturned⟩ := h.position old hposition
        refine ⟨lines, _, _, rfl, hinit, ?_, hreturned⟩
        rw [hposition] at hstart ⊢
        rw [Option.bind_some, hmessages, Option.map_some, Option.getD_some] at hstart
        exact hstart ▸ hread

/-- A read of the store that can take what is there goes on to the last complete line. -/
theorem messages_kept {w : World} (h : Kept reader w) {s : Store} {file : Bytes} {decoded : Nat} (hs : w.store = some s)
    (hfile : w.file = some file) (hproper : Proper reader w (.messages decoded)) :
    let after : Store :=
      ⟨(messages reader decoded s.inbox_offset (file.drop s.inbox_offset)).2,
        s.taken ++ (messages reader decoded s.inbox_offset (file.drop s.inbox_offset)).1.getD []⟩
    Kept reader { w with store := some after } ∧ after.taken = taken reader (complete file) := by
  obtain ⟨hvalid, hreturn, hloads⟩ := hproper s file hs hfile
  obtain ⟨lines, hread, htaken⟩ := h.store s (Or.inl hs)
  rw [hfile, Option.getD_some] at hread
  have hall : s.taken ++ taken reader (complete (file.drop s.inbox_offset)) = taken reader (complete file) := by
    rw [hread.drop, taken_append, htaken]
  rw [messages_spec hvalid hreturn hloads, Option.getD_some, hall]
  refine ⟨⟨h.inbox, h.unread, h.position, ?_⟩, rfl⟩
  intro s' hs'
  rcases hs' with hs' | rfl
  · cases hs'
    refine ⟨complete file, ?_, rfl⟩
    simpa only [hfile, Option.getD_some] using hread.all
  · exact h.store _ (Or.inr rfl)

theorem step_kept {w w' : World} {event : Event} (h : Kept reader w) (hproper : Proper reader w event)
    (hstep : step reader w event = some w') : Kept reader w' := by
  cases event with
  | append bytes =>
    cases hstep
    exact append_kept h bytes
  | poll saved =>
    obtain ⟨rfl, hfit⟩ := hproper
    cases hg : w.inbox with
    | none =>
      simp only [step, hg] at hstep
      cases hstep
    | some g =>
      cases hfile : w.file with
      | none =>
        simp only [step, hg, hfile] at hstep
        cases hstep
        exact h
      | some file =>
        simp only [step, hg, hfile] at hstep
        cases hstep
        exact (poll_kept h hg hfile (hfit g file hg hfile)).1
  | restart_inbox saved =>
    cases hstep
    exact restart_inbox_kept h saved hproper
  | messages decoded =>
    cases hs : w.store with
    | none =>
      simp only [step, hs] at hstep
      cases hstep
    | some s =>
      cases hfile : w.file with
      | none =>
        simp only [step, hs, hfile] at hstep
        cases hstep
        exact h
      | some file =>
        simp only [step, hs, hfile] at hstep
        cases hstep
        simpa only [hfile] using (messages_kept h hs hfile hproper).1
  | save_store =>
    obtain ⟨s, hs, rfl⟩ := Option.map_eq_some_iff.mp hstep
    refine ⟨h.inbox, h.unread, h.position, fun s' hs' => h.store s' (Or.inl ?_)⟩
    exact hs'.elim id fun heq => heq ▸ hs
  | restart_store =>
    cases hstep
    refine ⟨h.inbox, h.unread, h.position, fun s' hs' => h.store s' (Or.inr ?_)⟩
    exact hs'.elim (fun heq => (Option.some.inj heq).symm) id

theorem run_kept {events : List Event} {w w' : World} (h : Kept reader w) (hproper : Throughout (step reader) (Proper reader) w events)
    (hrun : run reader w events = some w') : Kept reader w' :=
  hproper.preserves (fun _ _ _ hw hok hstep => step_kept hw hok hstep) h hrun

theorem Read.first {file : Bytes} {offset : Nat} {lines : List Bytes} (h : Read file offset lines) : lines <+: complete file :=
  ⟨complete (file.drop offset), h.drop.symm⟩

theorem Kept.returned {w : World} (h : Kept reader w) :
    ∃ lines, lines <+: complete (w.file.getD []) ∧ w.returned = deliver reader 0 lines := by
  cases hposition : w.position with
  | none => exact ⟨[], List.nil_prefix, h.unread hposition⟩
  | some position =>
    obtain ⟨lines, -, -, -, -, hread, hreturned⟩ := h.position position hposition
    exact ⟨lines, hread.first, hreturned⟩

theorem Kept.taken {w : World} (h : Kept reader w) {s : Store} (hs : w.store = some s ∨ s = w.saved) :
    ∃ lines, lines <+: complete (w.file.getD []) ∧ s.taken = taken reader lines := by
  obtain ⟨lines, hread, htaken⟩ := h.store s hs
  exact ⟨lines, hread.first, htaken⟩

theorem Kept.poll {w w' : World} (h : Kept reader w) (hproper : Proper reader w (.poll true))
    (hstep : step reader w (.poll true) = some w') : w'.returned = deliver reader 0 (complete (w.file.getD [])) := by
  cases hg : w.inbox with
  | none =>
    simp only [step, hg] at hstep
    cases hstep
  | some g =>
    cases hfile : w.file with
    | none =>
      simp only [step, hg, hfile] at hstep
      cases hstep
      obtain ⟨lines, hlines, hreturned⟩ := h.returned
      rw [hfile] at hlines
      rw [hreturned, List.prefix_nil.mp hlines]
      rfl
    | some file =>
      simp only [step, hg, hfile] at hstep
      cases hstep
      exact (poll_kept h hg hfile (hproper.2 g file hg hfile)).2.2

theorem Kept.messages {w w' : World} {decoded : Nat} {s : Store} (h : Kept reader w) (hproper : Proper reader w (.messages decoded))
    (hstep : step reader w (.messages decoded) = some w') (hs : w'.store = some s) :
    s.taken = Inbox.taken reader (complete (w.file.getD [])) := by
  cases hstore : w.store with
  | none =>
    simp only [step, hstore] at hstep
    cases hstep
  | some before =>
    cases hfile : w.file with
    | none =>
      simp only [step, hstore, hfile] at hstep
      cases hstep
      obtain ⟨lines, hlines, htaken⟩ := h.taken (Or.inl hs)
      rw [hfile] at hlines
      rw [htaken, List.prefix_nil.mp hlines]
      rfl
    | some file =>
      simp only [step, hstore, hfile] at hstep
      cases hstep
      cases hs
      exact (messages_kept h hstore hfile hproper).2

/-- Where all that is read can be read and saved, what both readers have returned is what
the first lines of the file say, each once and in order, and a read returns the rest of
what its complete lines say. -/
theorem readers_deliver {events : List Event} {w : World} (hproper : Throughout (step reader) (Proper reader) .initial events)
    (hrun : run reader .initial events = some w) :
    (∃ lines, lines <+: complete (w.file.getD []) ∧ w.returned = deliver reader 0 lines) ∧
      (∀ s, w.store = some s ∨ s = w.saved → ∃ lines, lines <+: complete (w.file.getD []) ∧ s.taken = taken reader lines) ∧
      (∀ w', Proper reader w (.poll true) → step reader w (.poll true) = some w' →
        w'.returned = deliver reader 0 (complete (w.file.getD []))) ∧
      ∀ decoded w' s, Proper reader w (.messages decoded) → step reader w (.messages decoded) = some w' → w'.store = some s →
        s.taken = taken reader (complete (w.file.getD [])) := by
  have h := run_kept initial_kept hproper hrun
  exact ⟨h.returned, fun s hs => h.taken hs, fun w' => h.poll, fun decoded w' s => h.messages⟩

/-- `{}` is a message to the orchestrator; nothing else decodes. -/
def listener : Reader where
  recipient := "job".toList.map Char.toNat
  orchestrator := true
  inbox_offset := some 0
  loads line := if line = [123, 125, 10] then .object ⟨orchestrator, [], []⟩ else .value_error
  loads_text line := if line = [123, 125, 10] then .object ⟨orchestrator, [], []⟩ else .value_error

theorem empty_message_returned : ∃ w, run listener .initial [.append [123, 125, 10], .restart_inbox true] = some w ∧
    ∀ w', step listener w (.poll true) = some w' → w'.returned = [⟨orchestrator, [], []⟩] := by
  have hproper : Throughout (step listener) (Proper listener) .initial [.append [123, 125, 10], .restart_inbox true] := by
    refine ⟨trivial, fun w hw => ?_⟩
    exact ⟨fun _ => Option.some_ne_none 0, fun w' hw' => trivial⟩
  refine ⟨_, rfl, fun w' hstep => ?_⟩
  refine ((readers_deliver hproper rfl).2.2.1 w' ⟨rfl, fun g file hg hfile => ?_⟩ hstep).trans (by decide)
  cases hg
  cases hfile
  exact ⟨⟨by decide, by decide, fun message hmessage _ => by cases hmessage; rfl⟩, trivial⟩

/-- A poll before a line that is beyond the limit changes nothing. -/
theorem poll_before_long {w : World} (h : Kept reader w) {g : GuidanceInbox} {file line : Bytes} {lines : List Bytes}
    (hg : w.inbox = some g) (hfile : w.file = some file) (hcomplete : complete (file.drop g.offset) = line :: lines)
    (hlong : 65537 < line.length) : step reader w (.poll true) = some w := by
  have hstuck : poll_lines reader g [] (complete (file.drop g.offset)) = (some [], g) := by
    rw [hcomplete, poll_lines, if_pos hlong]
  have hposition := (h.inbox g hg).1
  have hsavable := (h.inbox_savable hg).1
  simp only [step, hg, hfile, poll, hstuck, save_savable hsavable, List.append_nil]
  rw [← hg, ← hfile, ← hposition]

/-- A line beyond the limit, and a message after it. -/
def blocked : Bytes := List.replicate 65537 120 ++ 10 :: [123, 125, 10]

theorem complete_blocked : complete blocked = [List.replicate 65537 120 ++ [10], [123, 125, 10]] :=
  complete_cons_line (fun h => by cases (List.mem_replicate.mp h).2) _

/-- No poll returns the message after a line beyond the limit. -/
theorem long_line_blocks :
    deliver listener 0 (complete blocked) = [⟨orchestrator, [], []⟩] ∧
      ∀ polls, ∃ w, run listener .initial (.append blocked :: .restart_inbox true :: List.replicate polls (.poll true)) = some w ∧
        w.file = some blocked ∧ w.returned = [] := by
  have hlength : (List.replicate 65537 (120 : UInt8) ++ [10]).length = 65538 := by
    rw [List.length_append, List.length_replicate, List.length_singleton]
  have hlong : listener.loads (List.replicate 65537 120 ++ [10]) = .value_error := by
    have hne : List.replicate 65537 (120 : UInt8) ++ [10] ≠ [123, 125, 10] := by
      intro heq
      rw [heq] at hlength
      exact absurd hlength (by decide)
    simp only [listener, if_neg hne]
  refine ⟨?_, fun polls => ?_⟩
  · rw [complete_blocked, deliver, hlong, hlength]
    rfl
  · have hkept : Kept listener (restart_inbox listener true { World.initial with file := some blocked }) :=
      restart_inbox_kept (append_kept initial_kept blocked) true fun _ => Option.some_ne_none 0
    have hpoll := poll_before_long hkept rfl rfl complete_blocked (by rw [hlength]; decide)
    refine ⟨restart_inbox listener true { World.initial with file := some blocked }, ?_, rfl, rfl⟩
    have hpolls : ∀ n, run listener (restart_inbox listener true { World.initial with file := some blocked })
        (List.replicate n (.poll true)) = some (restart_inbox listener true { World.initial with file := some blocked }) := by
      intro n
      induction n with
      | zero => rfl
      | succ n ih => exact List.foldlM_cons.trans (by rw [hpoll]; exact ih)
    exact hpolls polls

end LeanFlow.Inbox
