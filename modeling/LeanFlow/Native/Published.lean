import LeanFlow.Native.Promote
import LeanFlow.Native.Protected
import Mathlib.Logic.Relation

/-! What a promotion leaves of the project.

`Writing` holds while files are replaced and `Restoring` while they are put back; both
say of every file who wrote it last. No edit of a user falsifies them. -/
namespace LeanFlow.Native
open General Source

variable {β : Type}

/-! ### Users -/

def users (change : String × Option β) (w : World β) : Option (World β) := some (w.edit change)

/-- What users do between two steps. -/
def Edits : World β → World β → Prop := Relation.ReflTransGen fun w w' => ∃ change, w' = w.edit change

theorem Edits.of_users (change : String × Option β) (w w' : World β) (h : users change w = some w') : Edits w w' :=
  .single ⟨change, (Option.some.inj h).symm⟩

theorem Edits.stable {P : World β → Prop} (h : ∀ w change, P w → P (w.edit change)) : Prog.Stable Edits P := by
  intro w w' hw hedits
  induction hedits with
  | refl => exact hw
  | tail _ hedit ih =>
    obtain ⟨change, rfl⟩ := hedit
    exact h _ change ih

@[simp] theorem get?_put (path : String) (content : Option β) (w : World β) (x : String) :
    (w.put path content).files.get? x = if x = path then content else w.files.get? x := by
  cases content with
  | none => exact Dict.get?_erase ..
  | some data => exact Dict.get?_set ..

@[simp] theorem last_edit (change : String × Option β) (w : World β) (x : String) :
    (w.edit change).last x = if x = change.1 then some change.2 else w.last x := by
  show (if change.1 = x then some change.2 else w.last x) = _
  simp only [eq_comm]

theorem unedited_edit {change : String × Option β} {w : World β} {path : String} (h : (w.edit change).last path = none) :
    path ≠ change.1 ∧ w.last path = none := by
  by_cases hpath : path = change.1
  · simp [hpath] at h
  · simpa [hpath] using h

@[simp] theorem get?_edit (change : String × Option β) (w : World β) (x : String) :
    (w.edit change).files.get? x = if x = change.1 then change.2 else w.files.get? x := get?_put ..

@[simp] theorem written_edit (change : String × Option β) (w : World β) : (w.edit change).written = w.written := by
  unfold World.edit World.put
  cases change.2 <;> rfl

@[simp] theorem staged_edit (change : String × Option β) (w : World β) : (w.edit change).staged = w.staged := by
  unfold World.edit World.put
  cases change.2 <;> rfl

@[simp] theorem last_put (path : String) (content : Option β) (w : World β) (x : String) :
    (w.put path content).last x = w.last x := by
  cases content <;> rfl

@[simp] theorem staged_put (path : String) (content : Option β) (w : World β) : (w.put path content).staged = w.staged := by
  cases content <;> rfl

/-! ### Who wrote a file -/

section Files

variable (baseline tree : Dict String β) (goal : String → Option β)

/-- What a user left is there, unless it is what the project had or what was verified for it. -/
def Respected (w : World β) : Prop :=
  ∀ path content, w.last path = some content → w.files.get? path = content ∨
    ∃ data, goal path = some data ∧ (content = baseline.get? path ∨ content = some data)

/-- Files are being replaced. -/
structure Writing (w : World β) : Prop where
  respected : Respected baseline goal w
  unedited : ∀ path, w.last path = none → w.files.get? path = (w.written.get? path).or (tree.get? path)
  written : ∀ path data, w.written.get? path = some data → goal path = some data ∧
    (w.last path = none → tree.get? path = baseline.get? path)
  clean : w.staged = []

/-- Files are being put back, and those of `pending` are next. -/
structure Restoring (pending : List (String × β)) (w : World β) : Prop where
  respected : Respected baseline goal w
  unedited : ∀ path, w.last path = none → w.files.get? path = tree.get? path ∨
    ∃ data, (path, data) ∈ pending ∧ w.files.get? path = some data
  pending : ∀ item ∈ pending, goal item.1 = some item.2 ∧ (w.last item.1 = none → tree.get? item.1 = baseline.get? item.1)
  clean : w.staged = []

end Files

variable {baseline tree : Dict String β} {goal : String → Option β}

theorem Respected.edit {w : World β} (h : Respected baseline goal w) (change : String × Option β) :
    Respected baseline goal (w.edit change) := by
  intro path content hlast
  by_cases hpath : path = change.1
  · simp only [last_edit, if_pos hpath, Option.some.injEq] at hlast
    simp [hpath, hlast]
  · simp only [last_edit, if_neg hpath] at hlast
    simpa [hpath] using h path content hlast

theorem Writing.edit {w : World β} (h : Writing baseline tree goal w) (change : String × Option β) :
    Writing baseline tree goal (w.edit change) := by
  refine ⟨h.respected.edit change, fun path hnone => ?_, fun path data hdata => ?_, ?_⟩
  · obtain ⟨hpath, hnone⟩ := unedited_edit hnone
    simpa [hpath] using h.unedited path hnone
  · rw [written_edit] at hdata
    obtain ⟨hgoal, hsame⟩ := h.written path data hdata
    exact ⟨hgoal, fun hnone => hsame (unedited_edit hnone).2⟩
  · rw [staged_edit]
    exact h.clean

theorem Restoring.edit {pending : List (String × β)} {w : World β} (h : Restoring baseline tree goal pending w)
    (change : String × Option β) : Restoring baseline tree goal pending (w.edit change) := by
  refine ⟨h.respected.edit change, fun path hnone => ?_, fun item hitem => ?_, ?_⟩
  · obtain ⟨hpath, hnone⟩ := unedited_edit hnone
    simpa [hpath] using h.unedited path hnone
  · obtain ⟨hgoal, hsame⟩ := h.pending item hitem
    exact ⟨hgoal, fun hnone => hsame (unedited_edit hnone).2⟩
  · rw [staged_edit]
    exact h.clean

theorem Writing.kept : Prog.Kept Edits (Respected baseline goal) (Writing baseline tree goal) :=
  ⟨Edits.stable fun _ change h => h.edit change, fun _ h => h.respected⟩

theorem Restoring.kept (pending : List (String × β)) :
    Prog.Kept Edits (Respected baseline goal) (Restoring baseline tree goal pending) :=
  ⟨Edits.stable fun _ change h => h.edit change, fun _ h => h.respected⟩

theorem Writing.restoring {w : World β} (h : Writing baseline tree goal w) :
    Restoring baseline tree goal w.written.items.reverse w := by
  refine ⟨h.respected, fun path hnone => ?_, fun item hitem => ?_, h.clean⟩
  · rw [h.unedited path hnone]
    cases hdata : w.written.get? path with
    | none => exact Or.inl rfl
    | some data => exact Or.inr ⟨data, List.mem_reverse.mpr ((Dict.get?_eq_some_iff ..).mp hdata), rfl⟩
  · exact h.written item.1 item.2 ((Dict.get?_eq_some_iff ..).mpr (List.mem_reverse.mp hitem))

/-- One file is put back, if it is as the promotion left it. -/
theorem Restoring.step [DecidableEq β] {item : String × β} {pending : List (String × β)} {w : World β}
    (h : Restoring baseline tree goal (item :: pending) w) :
    Restoring baseline tree goal pending
      (if w.files.get? item.1 = some item.2 then w.put item.1 (baseline.get? item.1) else w) := by
  obtain ⟨hgoal, hsame⟩ := h.pending item (List.mem_cons_self ..)
  by_cases hours : w.files.get? item.1 = some item.2
  · rw [if_pos hours]
    refine ⟨fun path content hlast => ?_, fun path hnone => ?_, fun other hother => ?_, ?_⟩
    · rw [last_put] at hlast
      rw [get?_put]
      by_cases hpath : path = item.1
      · subst hpath
        rw [if_pos rfl]
        rcases h.respected _ content hlast with hcontent | hcontent
        · exact Or.inr ⟨item.2, hgoal, Or.inr (hcontent.symm.trans hours)⟩
        · exact Or.inr hcontent
      · rw [if_neg hpath]
        exact h.respected path content hlast
    · rw [last_put] at hnone
      rw [get?_put]
      by_cases hpath : path = item.1
      · subst hpath
        rw [if_pos rfl]
        exact Or.inl (hsame hnone).symm
      · rw [if_neg hpath]
        rcases h.unedited path hnone with htree | ⟨data, hmem, hdata⟩
        · exact Or.inl htree
        · rcases List.mem_cons.mp hmem with heq | hmem
          · exact absurd (congrArg Prod.fst heq) hpath
          · exact Or.inr ⟨data, hmem, hdata⟩
    · rw [last_put]
      exact h.pending other (List.mem_cons_of_mem _ hother)
    · rw [staged_put]
      exact h.clean
  · rw [if_neg hours]
    refine ⟨h.respected, fun path hnone => ?_, fun other hother => h.pending other (List.mem_cons_of_mem _ hother), h.clean⟩
    rcases h.unedited path hnone with htree | ⟨data, hmem, hdata⟩
    · exact Or.inl htree
    · rcases List.mem_cons.mp hmem with heq | hmem
      · exact absurd (heq ▸ hdata) hours
      · exact Or.inr ⟨data, hmem, hdata⟩

/-! ### The calls -/

section Calls

variable [DecidableEq β] {H : Host β} {encode : Text → β} {L : Links} {fails : Call → Bool} {receipt : Receipt}

/-- No file is left when it was being written or put in place. -/
def Quiet (fails : Call → Bool) : Prop := ∀ path, fails (.write path) = false ∧ fails (.replace path) = false

omit [DecidableEq β] in
/-- The file had the bytes of the baseline. -/
theorem Writing.replaced {path : String} {data : β} {w : World β} (h : Writing baseline tree goal w)
    (hgoal : goal path = some data) (hsame : w.files.get? path = baseline.get? path) :
    Writing baseline tree goal { w.put path (some data) with written := w.written.set path data } := by
  refine ⟨fun x content hlast => ?_, fun x hnone => ?_, fun x d hd => ?_, ?_⟩
  · have hlast : w.last x = some content := (last_put path (some data) w x).symm.trans hlast
    show (w.put path (some data)).files.get? x = content ∨ _
    rw [get?_put]
    by_cases hx : x = path
    · subst hx
      rw [if_pos rfl]
      rcases h.respected x content hlast with hcontent | hcontent
      · exact Or.inr ⟨data, hgoal, Or.inl (hcontent.symm.trans hsame)⟩
      · exact Or.inr hcontent
    · rw [if_neg hx]
      exact h.respected x content hlast
  · have hnone : w.last x = none := (last_put path (some data) w x).symm.trans hnone
    show (w.put path (some data)).files.get? x = ((w.written.set path data).get? x).or (tree.get? x)
    rw [get?_put, Dict.get?_set]
    by_cases hx : x = path
    · rw [if_pos hx, if_pos hx]
      rfl
    · rw [if_neg hx, if_neg hx]
      exact h.unedited x hnone
  · show goal x = some d ∧ ((w.put path (some data)).last x = none → tree.get? x = baseline.get? x)
    have hd : (w.written.set path data).get? x = some d := hd
    rw [last_put]
    rw [Dict.get?_set] at hd
    by_cases hx : x = path
    · subst hx
      rw [if_pos rfl] at hd
      refine ⟨hgoal.trans hd, fun hnone => ?_⟩
      have hbefore := h.unedited x hnone
      cases hw : w.written.get? x with
      | none =>
        rw [hw] at hbefore
        exact hbefore.symm.trans hsame
      | some d' => exact (h.written x d' hw).2 hnone
    · rw [if_neg hx] at hd
      exact h.written x d hd
  · show (w.put path (some data)).staged = []
    rw [staged_put]
    exact h.clean

/-- What one turn of the loop does when it is let through. -/
theorem check_and_replace_cases (H : Host β) (baseline : Dict String β) (receipt : Receipt) (hfails : Quiet fails) (path : String)
    (data : β) (w : World β) :
    (∃ e, check_and_replace H fails baseline receipt path data w = (.error e, w)) ∨
      w.files.get? path = baseline.get? path ∧ check_and_replace H fails baseline receipt path data w =
        (.ok (), { w.put path (some data) with written := w.written.set path data }) := by
  unfold check_and_replace replace_file
  rw [(hfails path).1, (hfails path).2]
  split
  · exact Or.inl ⟨_, rfl⟩
  · split
    · exact Or.inl ⟨_, rfl⟩
    · rename_i hsame
      split
      · exact Or.inl ⟨_, rfl⟩
      · split
        · exact Or.inl ⟨_, rfl⟩
        · split
          · exact Or.inl ⟨_, rfl⟩
          · exact Or.inr ⟨not_not.mp hsame, rfl⟩

/-- These files of the receipt are in place. -/
def Done (encode : Text → β) (items : List (String × Text)) (w : World β) : Prop :=
  ∀ item ∈ items, w.written.get? item.1 = some (encode item.2)

omit [DecidableEq β] in
theorem writing_done_kept (items : List (String × Text)) :
    Prog.Kept Edits (Respected baseline goal) fun w => Writing baseline tree goal w ∧ Done encode items w := by
  refine ⟨Edits.stable fun w change h => ⟨h.1.edit change, fun item hitem => ?_⟩, fun _ h => h.1.respected⟩
  rw [written_edit]
  exact h.2 item hitem

theorem failing_writing (failed : Bool) (e : Raised) (items : List (String × Text)) :
    Prog.Outline Edits (Respected baseline goal) (fun w => Writing baseline tree goal w ∧ Done encode items w)
      (failing failed e) (fun _ w => Writing baseline tree goal w ∧ Done encode items w) fun _ => Writing baseline tree goal := by
  unfold failing
  exact .ite (fun _ => .raise (writing_done_kept items) fun _ h => h.1) fun _ => .ret (writing_done_kept items) fun _ h => h

theorem publish_file_outline (hfails : Quiet fails) {item : String × Text} (hgoal : goal item.1 = some (encode item.2))
    (items : List (String × Text)) :
    Prog.Outline Edits (Respected baseline goal) (fun w => Writing baseline tree goal w ∧ Done encode items w)
      (publish_file H encode L fails baseline receipt item)
      (fun _ w => Writing baseline tree goal w ∧ Done encode (items ++ [item]) w) fun _ => Writing baseline tree goal := by
  refine .bind (fun _ => .refl) (failing_writing _ _ items) fun _ =>
    .bind (fun _ => .refl) (failing_writing _ _ items) fun _ =>
    .ite (fun _ => .raise (writing_done_kept items) fun _ h => h.1) fun _ =>
    .atomically (writing_done_kept items) (fun _ => writing_done_kept _) (fun _ => Writing.kept)
      (fun w a hw hok => ?_) fun w e hw herror => ?_
  · rcases check_and_replace_cases H baseline receipt hfails item.1 (encode item.2) w with
      ⟨e, he⟩ | ⟨hsame, hreplaced⟩
    · rw [he] at hok
      cases hok
    · rw [hreplaced]
      refine ⟨hw.1.replaced hgoal hsame, fun other hother => ?_⟩
      show (w.written.set item.1 (encode item.2)).get? other.1 = _
      rw [Dict.get?_set]
      by_cases hpath : other.1 = item.1
      · rw [if_pos hpath]
        rcases List.mem_append.mp hother with hmem | hmem
        · have hwritten := (hw.1.written other.1 _ (hw.2 other hmem)).1
          rw [hpath] at hwritten
          exact hgoal.symm.trans hwritten
        · rw [List.mem_singleton.mp hmem]
      · rw [if_neg hpath]
        rcases List.mem_append.mp hother with hmem | hmem
        · exact hw.2 other hmem
        · exact absurd (congrArg Prod.fst (List.mem_singleton.mp hmem)) hpath
  · rcases check_and_replace_cases H baseline receipt hfails item.1 (encode item.2) w with
      ⟨e, he⟩ | ⟨-, hreplaced⟩
    · rw [he]
      exact hw.1
    · rw [hreplaced] at herror
      cases herror

theorem publish_files_outline (hfails : Quiet fails) {todo : List (String × Text)}
    (hgoal : ∀ item ∈ todo, goal item.1 = some (encode item.2)) (items : List (String × Text)) :
    Prog.Outline Edits (Respected baseline goal) (fun w => Writing baseline tree goal w ∧ Done encode items w)
      (todo.forM (publish_file H encode L fails baseline receipt))
      (fun _ w => Writing baseline tree goal w ∧ Done encode (items ++ todo) w) fun _ => Writing baseline tree goal := by
  induction todo generalizing items with
  | nil =>
    rw [List.append_nil]
    exact .ret (writing_done_kept items) fun _ h => h
  | cons item todo ih =>
    refine .bind (fun _ => .refl) (publish_file_outline hfails (hgoal item (List.mem_cons_self ..)) items) fun _ => ?_
    have hrest := ih (fun other hother => hgoal other (List.mem_cons_of_mem _ hother)) (items ++ [item])
    rw [List.append_assoc] at hrest
    exact hrest

theorem restore_files_outline (pending : List (String × β)) :
    Prog.Outline Edits (Respected baseline goal) (Restoring baseline tree goal pending)
      (pending.forM (restore_file baseline)) (fun _ => Restoring baseline tree goal [])
      fun (_ : Raised) => Restoring baseline tree goal [] := by
  induction pending with
  | nil => exact .ret (Restoring.kept []) fun _ h => h
  | cons item pending ih =>
    refine .bind (fun _ => .refl) ?_ fun _ => ih
    exact .modify (Q := fun _ => Restoring baseline tree goal pending) (Restoring.kept _) (Restoring.kept _) fun _ h => h.step

theorem roll_back_outline : Prog.Outline Edits (Respected baseline goal) (Writing baseline tree goal) (roll_back baseline)
    (fun _ => Restoring baseline tree goal []) fun (_ : Raised) => Restoring baseline tree goal [] := by
  refine .bind (fun _ => .refl) (Q := fun w₀ w => Restoring baseline tree goal w₀.written.items.reverse w)
    (.get Writing.kept fun w w' hw hedits => ?_) fun w₀ => restore_files_outline _
  exact (Restoring.kept _).stable w w' hw.restoring hedits

/-- Every file that no user edited has the bytes of the receipt, or those it had. -/
structure Published (baseline tree : Dict String β) (goal : String → Option β) (w : World β) : Prop where
  respected : Respected baseline goal w
  written : ∀ path, w.written.get? path = goal path
  unedited : ∀ path, w.last path = none → w.files.get? path = (goal path).or (tree.get? path)
  clean : w.staged = []

/-- Every file that no user edited has the bytes it had. -/
structure RolledBack (baseline tree : Dict String β) (goal : String → Option β) (w : World β) : Prop where
  respected : Respected baseline goal w
  unedited : ∀ path, w.last path = none → w.files.get? path = tree.get? path
  clean : w.staged = []

omit [DecidableEq β] in
theorem Restoring.rolledBack {w : World β} (h : Restoring baseline tree goal [] w) : RolledBack baseline tree goal w := by
  refine ⟨h.respected, fun path hnone => ?_, h.clean⟩
  rcases h.unedited path hnone with htree | ⟨_, hmem, -⟩
  · exact htree
  · cases hmem

/-- Nothing was replaced yet. -/
def Untouched (baseline tree : Dict String β) (goal : String → Option β) (w : World β) : Prop :=
  Writing baseline tree goal w ∧ w.written = .empty

omit [DecidableEq β] in
theorem Untouched.kept : Prog.Kept Edits (Respected baseline goal) (Untouched baseline tree goal) := by
  refine ⟨Edits.stable fun w change h => ⟨h.1.edit change, ?_⟩, fun _ h => h.1.respected⟩
  rw [written_edit]
  exact h.2

omit [DecidableEq β] in
theorem Untouched.rolledBack {w : World β} (h : Untouched baseline tree goal w) : RolledBack baseline tree goal w := by
  refine ⟨h.1.respected, fun path hnone => ?_, h.1.clean⟩
  rw [h.1.unedited path hnone, h.2, Dict.get?_empty, Option.none_or]

omit [DecidableEq β] in
theorem Writing.published (hgoal : ∀ path, goal path = (receipt.files.get? path).map encode) {w : World β}
    (h : Writing baseline tree goal w) (hdone : Done encode receipt.files.items w) : Published baseline tree goal w := by
  have hwritten : ∀ path, w.written.get? path = goal path := by
    intro path
    cases htext : receipt.files.get? path with
    | none =>
      rw [hgoal, htext]
      cases hdata : w.written.get? path with
      | none => rfl
      | some data =>
        have hpath := (h.written path data hdata).1
        rw [hgoal, htext] at hpath
        cases hpath
    | some text =>
      rw [hgoal, htext]
      exact hdone (path, text) ((Dict.get?_eq_some_iff ..).mp htext)
  refine ⟨h.respected, hwritten, fun path hnone => ?_, h.clean⟩
  rw [h.unedited path hnone, hwritten]

theorem failing_untouched (failed : Bool) (e : Raised) :
    Prog.Outline Edits (Respected baseline goal) (Untouched baseline tree goal) (failing failed e)
      (fun _ => Untouched baseline tree goal) fun _ => RolledBack baseline tree goal := by
  unfold failing
  exact .ite (fun _ => .raise Untouched.kept fun _ h => h.rolledBack) fun _ => .ret Untouched.kept fun _ h => h

theorem refused_untouched {c : Prop} [Decidable c] (e : Raised) :
    Prog.Outline Edits (Respected baseline goal) (Untouched baseline tree goal) (if c then .raise e else pure ())
      (fun _ => Untouched baseline tree goal) fun _ => RolledBack baseline tree goal :=
  .ite (fun _ => .raise Untouched.kept fun _ h => h.rolledBack) fun _ => .ret Untouched.kept fun _ h => h

theorem promote_outline (hfails : Quiet fails) (hgoal : ∀ path, goal path = (receipt.files.get? path).map encode) (generation : String) :
    Prog.Outline Edits (Respected baseline goal) (Untouched baseline tree goal)
      (promote H encode L fails baseline receipt generation) (fun _ => Published baseline tree goal)
      fun _ => RolledBack baseline tree goal := by
  have hitems : ∀ item ∈ receipt.files.items, goal item.1 = some (encode item.2) := by
    intro item hitem
    rw [hgoal, (Dict.get?_eq_some_iff ..).mpr hitem]
    rfl
  have hloop : Prog.Outline Edits (Respected baseline goal) (fun w => Writing baseline tree goal w ∧ Done encode [] w)
      (do
        receipt.files.items.forM (publish_file H encode L fails baseline receipt)
        failing (fails .finished) .interrupted)
      (fun _ w => Writing baseline tree goal w ∧ Done encode receipt.files.items w) fun _ => Writing baseline tree goal :=
    .bind (fun _ => .refl) (publish_files_outline hfails hitems []) fun _ => failing_writing _ _ _
  have hrollback (e : Raised) : Prog.Outline Edits (Respected baseline goal) (Writing baseline tree goal)
      (do
        roll_back baseline
        .raise e)
      (fun (_ : PUnit) w => Writing baseline tree goal w ∧ Done encode receipt.files.items w)
      fun _ => RolledBack baseline tree goal :=
    .bind (fun _ => .refl) (roll_back_outline.mono (fun _ h => h) (fun _ _ h => h) fun _ _ h => h.rolledBack) fun _ =>
      .raise (Restoring.kept []) fun _ h => h.rolledBack
  refine .ite (fun _ => .raise Untouched.kept fun _ h => h.rolledBack) fun _ =>
    .bind (fun _ => .refl) (failing_untouched _ _) fun _ => .bind (fun _ => .refl) (failing_untouched _ _) fun _ =>
    .bind (fun _ => .refl) (failing_untouched _ _) fun _ =>
    .bind (fun _ => .refl) (Q := fun _ => Untouched baseline tree goal)
      (.get Untouched.kept fun w w' hw hedits => Untouched.kept.stable w w' hw hedits) fun w =>
    .bind (fun _ => .refl) (refused_untouched _) fun _ => .bind (fun _ => .refl) (failing_untouched _ _) fun _ =>
    .bind (fun _ => .refl) (refused_untouched _) fun _ =>
    .bind (fun _ => .refl) ((Prog.Outline.handle (fun _ => .refl) hloop hrollback).mono (fun w hw => ⟨hw.1, fun _ h => by cases h⟩)
      (fun _ _ h => h) fun _ _ h => h) fun _ => ?_
  refine .bind (fun _ => .refl) (Q := fun _ w => Writing baseline tree goal w ∧ Done encode receipt.files.items w)
    (.get (writing_done_kept _) fun w w' hw hedits => (writing_done_kept _).stable w w' hw hedits) fun w =>
    .ret (writing_done_kept _) fun _ h => h.1.published hgoal h.2

end Calls

/-! ### Receipts -/

variable [DecidableEq β]

/-- What was verified for a file that the proposal changes. -/
def Trial.verified (t : Trial β) (path : String) : Option β :=
  if t.proposed.get? path = t.baseline.get? path then none else t.proposed.get? path

variable {H : Host β} {encode : Text → β} {L : Links} {t : Trial β} {receipt : Receipt}

theorem mem_changed {path : String} {data : β} : (path, data) ∈ t.changed ↔ t.verified path = some data := by
  unfold Trial.changed Trial.verified
  rw [List.mem_filter, decide_eq_true_eq, ← Dict.get?_eq_some_iff]
  by_cases hsame : t.proposed.get? path = t.baseline.get? path
  · rw [if_pos hsame, ← hsame]
    exact iff_of_false (fun h => h.2 h.1) (fun h => by cases h)
  · rw [if_neg hsame]
    refine and_iff_left_of_imp fun hdata hbaseline => hsame ?_
    exact hdata.trans hbaseline.symm

/-- A review that is accepted has no changes. -/
theorem review_unchanged (h : verify H t = .ok receipt) (haccepted : receipt.accepted = true) (hreview : t.workflow = "review") :
    t.changed = [] ∧ receipt.files = .empty ∧ receipt.environment_generation = none := by
  unfold verify at h
  obtain ⟨_, -, h⟩ := bind_eq_ok.mp h
  obtain ⟨_, -, h⟩ := bind_eq_ok.mp h
  obtain ⟨_, -, h⟩ := bind_eq_ok.mp h
  rw [if_pos hreview] at h
  obtain rfl := Except.ok.inj h
  exact ⟨of_decide_eq_true haccepted, rfl, rfl⟩

/-- The texts of the receipt are those of the verified bytes. -/
theorem sealed_files (hencode : ∀ data text, H.decode data = some text → encode text = data) (h : Sealed H t receipt) (path : String) :
    t.verified path = (receipt.files.get? path).map encode := by
  obtain ⟨files, hfiles, hreceipt⟩ := h.files
  rw [hreceipt]
  cases htext : (Dict.ofList files).get? path with
  | some text =>
    obtain ⟨item, hitem, hdecoded⟩ := mapM_mem hfiles (Dict.mem_of_get?_ofList htext)
    obtain ⟨text', htext', hpair⟩ := bind_eq_ok.mp hdecoded
    obtain ⟨rfl, rfl⟩ := Prod.mk.inj (Except.ok.inj hpair)
    rw [Option.map_some, hencode _ _ (decoded_eq_ok.mp htext')]
    exact mem_changed.mp hitem
  | none =>
    cases hdata : t.verified path with
    | none => rfl
    | some data =>
      obtain ⟨entry, hentry, hdecoded⟩ := mapM_eq_ok hfiles (mem_changed.mpr hdata)
      obtain ⟨text, -, hpair⟩ := bind_eq_ok.mp hdecoded
      obtain rfl := Except.ok.inj hpair
      obtain ⟨text', htext'⟩ := Dict.exists_get?_ofList (List.mem_map_of_mem hentry (f := Prod.fst))
      rw [htext] at htext'
      cases htext'

theorem sealed_sha256 (h : Sealed H t receipt) {path : String} {data : β} (hdata : t.verified path = some data) :
    receipt.sha256.get? path = some (H.sha256 data) := by
  rw [h.sha256]
  have hkey : path ∈ (t.changed.map fun item => (item.1, H.sha256 item.2)).map Prod.fst := by
    rw [List.map_map]
    exact List.mem_map.mpr ⟨(path, data), mem_changed.mpr hdata, rfl⟩
  obtain ⟨sha256, hsha256⟩ := Dict.exists_get?_ofList hkey
  obtain ⟨item, hitem, hpair⟩ := List.mem_map.mp (Dict.mem_of_get?_ofList hsha256)
  obtain ⟨rfl, rfl⟩ := Prod.mk.inj hpair
  rw [hsha256, Option.some.inj ((mem_changed.mp hitem).symm.trans hdata)]

theorem verified_files (hencode : ∀ data text, H.decode data = some text → encode text = data)
    (hverify : verify_proposal H t = .ok receipt) (haccepted : receipt.accepted = true) (path : String) :
    t.verified path = (receipt.files.get? path).map encode := by
  have hverified := verify_of_accepted hverify haccepted
  by_cases hreview : t.workflow = "review"
  · obtain ⟨hchanged, hfiles, -⟩ := review_unchanged hverified haccepted hreview
    rw [hfiles]
    cases hdata : t.verified path with
    | none => rfl
    | some data =>
      have hmem := mem_changed.mpr hdata
      rw [hchanged] at hmem
      cases hmem
  · exact sealed_files hencode (passed_of_verify hverified hreview).2 path

/-! ### When nothing fails -/

section Calm

variable {baseline tree : Dict String β}

/-- The file can be published, on a tree that nobody edits. -/
def Publishable (L : Links) (baseline tree : Dict String β) (path : String) : Prop :=
  hidden path = false ∧ L.escapes path = false ∧ tree.get? path = baseline.get? path

theorem calm_publish_file (L : Links) (baseline : Dict String β) {item : String × Text} (hsha : receipt.sha256.get? item.1 = some (H.sha256 (encode item.2))) (w : World β) :
    (Publishable L baseline w.files item.1 ∧ Prog.calm (publish_file H encode L (fun _ => false) baseline receipt item) w =
        (.ok (), { w.put item.1 (some (encode item.2)) with written := w.written.set item.1 (encode item.2) })) ∨
      ¬Publishable L baseline w.files item.1 ∧
        ∃ e, Prog.calm (publish_file H encode L (fun _ => false) baseline receipt item) w = (.error e, w) := by
  have hcalm : Prog.calm (publish_file H encode L (fun _ => false) baseline receipt item) w =
      Prog.calm (if L.escapes item.1 || hidden item.1 then
        .raise (.value_error ⟨"Proposal path escapes the publishable project source"⟩)
        else Prog.atomically (check_and_replace H (fun _ => false) baseline receipt item.1 (encode item.2))) w := rfl
  rw [hcalm]
  cases hplace : L.escapes item.1 || hidden item.1 with
  | true =>
    refine Or.inr ⟨fun h => ?_, _, rfl⟩
    rw [h.1, h.2.1] at hplace
    cases hplace
  | false =>
    obtain ⟨hescapes, hhidden⟩ := Bool.or_eq_false_iff.mp hplace
    rw [if_neg Bool.false_ne_true, Prog.calm_atomically]
    by_cases hsame : w.files.get? item.1 = baseline.get? item.1
    · refine Or.inl ⟨⟨hhidden, hescapes, hsame⟩, ?_⟩
      simp [check_and_replace, replace_file, hsame, hsha]
    · refine Or.inr ⟨fun h => hsame h.2.2, .value_error ⟨"Canonical source changed before publication: " ++ item.1⟩, ?_⟩
      simp [check_and_replace, hsame]

theorem calm_publish_files {items : List (String × Text)} (hdistinct : (items.map Prod.fst).Nodup)
    (hsha : ∀ item ∈ items, receipt.sha256.get? item.1 = some (H.sha256 (encode item.2))) {w : World β}
    (hfiles : ∀ item ∈ items, w.files.get? item.1 = tree.get? item.1) :
    (∃ w', Prog.calm (items.forM (publish_file H encode L (fun _ => false) baseline receipt)) w = (.ok (), w')) ↔
      ∀ item ∈ items, Publishable L baseline tree item.1 := by
  induction items generalizing w with
  | nil => exact ⟨fun _ _ hitem => absurd hitem List.not_mem_nil, fun _ => ⟨w, rfl⟩⟩
  | cons item items ih =>
    obtain ⟨hnew, hdistinct⟩ := List.nodup_cons.mp hdistinct
    have hsame : Publishable L baseline w.files item.1 ↔ Publishable L baseline tree item.1 := by
      unfold Publishable
      rw [hfiles item (List.mem_cons_self ..)]
    have hcons : (item :: items).forM (publish_file H encode L (fun _ => false) baseline receipt) =
        (publish_file H encode L (fun _ => false) baseline receipt item >>= fun _ =>
          items.forM (publish_file H encode L (fun _ => false) baseline receipt)) := rfl
    rw [hcons, Prog.calm_bind, List.forall_mem_cons, ← hsame]
    rcases calm_publish_file L baseline (hsha item (List.mem_cons_self ..)) w with
      ⟨hpublishable, hturn⟩ | ⟨hrefused, e, hturn⟩
    · rw [hturn]
      refine (ih hdistinct (fun other hother => hsha other (List.mem_cons_of_mem _ hother)) fun other hother => ?_).trans
        (and_iff_right hpublishable).symm
      have hne : other.1 ≠ item.1 := fun heq => hnew (List.mem_map.mpr ⟨other, hother, heq⟩)
      show (w.put item.1 (some (encode item.2))).files.get? other.1 = tree.get? other.1
      rw [get?_put, if_neg hne]
      exact hfiles other (List.mem_cons_of_mem _ hother)
    · rw [hturn]
      exact iff_of_false (fun ⟨_, h⟩ => by cases h) fun h => hrefused h.1

/-- The promotion of a receipt for this environment gets through just when the loop does. -/
theorem calm_promote (haccepted : receipt.accepted = true) (htree : (source_files L tree).equals baseline = true)
    {generation : String} (hgeneration : receipt.environment_generation = some generation) :
    (∃ names w, Prog.calm (promote H encode L (fun _ => false) baseline receipt generation) { files := tree } = (.ok names, w)) ↔
      ∃ w, Prog.calm (receipt.files.items.forM (publish_file H encode L (fun _ => false) baseline receipt)) { files := tree } =
        (.ok (), w) := by
  unfold promote
  rw [if_neg (by simp [haccepted])]
  simp only [Prog.calm_bind, Prog.calm_handle, Prog.calm_get, Prog.calm_pure, Prog.calm_raise, failing, hgeneration, htree,
    Bool.false_eq_true, Bool.not_true, if_false, ne_eq, not_true_eq_false]
  rcases Prog.calm (receipt.files.items.forM (publish_file H encode L (fun _ => false) baseline receipt)) { files := tree } with
    ⟨result, w⟩
  cases result with
  | ok _ => exact ⟨fun _ => ⟨w, rfl⟩, fun _ => ⟨w.written.keys, w, rfl⟩⟩
  | error e =>
    refine iff_of_false ?_ fun ⟨_, h⟩ => by cases h
    dsimp only
    rcases Prog.calm (roll_back baseline) w with ⟨undone, w'⟩
    cases undone with
    | ok _ => exact fun ⟨_, _, h⟩ => by cases h
    | error e' => exact fun ⟨_, _, h⟩ => by cases h

/-- A review has nothing to promote, and its receipt is refused. -/
theorem calm_promote_unsealed (haccepted : receipt.accepted = true) (htree : (source_files L tree).equals baseline = true)
    (hgeneration : receipt.environment_generation = none) {generation : String} :
    ¬∃ names w, Prog.calm (promote H encode L (fun _ => false) baseline receipt generation) { files := tree } = (.ok names, w) := by
  rintro ⟨names, w, hcalm⟩
  unfold promote at hcalm
  rw [if_neg (by simp [haccepted])] at hcalm
  simp [Prog.calm_bind, failing, htree, hgeneration] at hcalm

end Calm

/-! ### The promotion -/

omit [DecidableEq β] in
theorem untouched_start (baseline tree : Dict String β) (goal : String → Option β) : Untouched baseline tree goal { files := tree } :=
  ⟨⟨fun _ _ h => (by cases h), fun path _ => (by rw [Dict.get?_empty, Option.none_or]), fun _ _ h => (by cases h), rfl⟩, rfl⟩

/-- A path that a snapshot takes is as the baseline has it. -/
theorem tree_iff (htree : (source_files L tree).equals t.baseline = true) (path : String) :
    tree.get? path = t.baseline.get? path ↔ source_path L path = true ∨ tree.get? path = none := by
  rw [← Dict.equals_iff.mp htree path]
  unfold source_files
  rw [Dict.get?_restrict]
  by_cases hpath : source_path L path = true
  · rw [if_pos hpath]
    exact iff_of_true rfl (Or.inl hpath)
  · rw [if_neg hpath]
    exact ⟨Or.inr, fun h => h.resolve_left hpath⟩

theorem promote_atomic (H : Host β) (encode : Text → β) (L : Links) (t : Trial β) (receipt : Receipt) (tree : Dict String β)
    (hencode : ∀ data text, H.decode data = some text → encode text = data)
    (hverify : verify_proposal H t = .ok receipt) (haccepted : receipt.accepted = true)
    (htree : (source_files L tree).equals t.baseline = true) :
    (∀ fails, Quiet fails → ∀ generation moves result w,
      Prog.drive users moves (promote H encode L fails t.baseline receipt generation, { files := tree }) = some (result, w) →
        Respected t.baseline t.verified w ∧
        (∀ names, result = .ret names → Published t.baseline tree t.verified w) ∧
        ∀ e, result = .raise e → RolledBack t.baseline tree t.verified w ∧
          ∀ path, source_path L path = true → w.last path = none → w.files.get? path = t.baseline.get? path) ∧
    ((∃ names w, Prog.calm (promote H encode L (fun _ => false) t.baseline receipt t.generation) { files := tree } = (.ok names, w)) ↔
      t.workflow ≠ "review" ∧ ∀ path data, t.verified path = some data →
        hidden path = false ∧ L.escapes path = false ∧ (source_path L path = true ∨ tree.get? path = none)) := by
  have hgoal := verified_files hencode hverify haccepted
  have hverified := verify_of_accepted hverify haccepted
  refine ⟨fun fails hfails generation moves result w hrun => ?_, ?_⟩
  · have hspec := (promote_outline (H := H) (L := L) hfails hgoal generation _ (untouched_start t.baseline tree t.verified)).drive
      (fun _ => .refl) (fun _ _ _ => .trans) Edits.of_users hrun
    refine ⟨hspec.inv fun _ => .refl, fun names hret => ?_, fun e hraise => ?_⟩
    · subst hret
      exact (hspec w .refl).2
    · subst hraise
      have hrolled := (hspec w .refl).2
      refine ⟨hrolled, fun path hpath hnone => ?_⟩
      rw [hrolled.unedited path hnone]
      exact (tree_iff htree path).mpr (Or.inl hpath)
  · by_cases hreview : t.workflow = "review"
    · obtain ⟨-, -, hgeneration⟩ := review_unchanged hverified haccepted hreview
      exact iff_of_false (calm_promote_unsealed haccepted htree hgeneration) fun h => h.1 hreview
    · have hsealed := (passed_of_verify hverified hreview).2
      have hitems : ∀ item ∈ receipt.files.items, t.verified item.1 = some (encode item.2) := by
        intro item hitem
        rw [hgoal, (Dict.get?_eq_some_iff ..).mpr hitem]
        rfl
      rw [calm_promote haccepted htree hsealed.environment_generation, calm_publish_files receipt.files.distinct ?_ fun _ _ => rfl]
      · refine ⟨fun h => ⟨hreview, fun path data hdata => ?_⟩, fun h item hitem => ?_⟩
        · rw [hgoal] at hdata
          obtain ⟨text, htext, -⟩ := Option.map_eq_some_iff.mp hdata
          obtain ⟨hhidden, hescapes, hsame⟩ := h (path, text) ((Dict.get?_eq_some_iff ..).mp htext)
          exact ⟨hhidden, hescapes, (tree_iff htree path).mp hsame⟩
        · obtain ⟨hhidden, hescapes, hplace⟩ := h.2 item.1 _ (hitems item hitem)
          exact ⟨hhidden, hescapes, (tree_iff htree item.1).mpr hplace⟩
      · exact fun item hitem => sealed_sha256 hsealed (hitems item hitem)


/-! ### Examples -/

def sampleLinks : Links := ⟨fun _ => false, fun _ => false⟩

def sampleReceipt : Receipt :=
  (verify_proposal (sampleHost sampleDeclared) (sampleTrial sampleHole sampleProof)).toOption.getD ⟨false, "", none, .empty, .empty, .empty⟩

theorem sample_verified : verify_proposal (sampleHost sampleDeclared) (sampleTrial sampleHole sampleProof) = .ok sampleReceipt := rfl

theorem sample_promoted :
    ∃ names w, Prog.calm (promote (sampleHost sampleDeclared) id sampleLinks (fun _ => false) (sampleTrial sampleHole sampleProof).baseline
      sampleReceipt "1") { files := Dict.ofList [("Main.lean", sampleHole)] } = (.ok names, w) := by
  refine (promote_atomic (sampleHost sampleDeclared) id sampleLinks (sampleTrial sampleHole sampleProof) sampleReceipt
    (Dict.ofList [("Main.lean", sampleHole)]) (fun _ _ h => (Option.some.inj h).symm) sample_verified (by decide) (by decide)).2.mpr
    ⟨by decide, fun path data hdata => ?_⟩
  have hmem : (path, data) ∈ [("Main.lean", sampleProof)] := Dict.mem_of_get?_ofList
    ((Dict.get?_eq_some_iff ..).mpr (List.mem_filter.mp (mem_changed.mpr hdata)).1)
  obtain ⟨rfl, -⟩ := Prod.mk.inj (List.mem_singleton.mp hmem)
  exact ⟨by decide, rfl, Or.inl (by decide)⟩

/-- The temporary file stays when it cannot take the place of the file. -/
theorem staged_left : verify_proposal (sampleHost sampleDeclared) (sampleTrial sampleHole sampleProof) = .ok sampleReceipt ∧
    sampleReceipt.accepted = true ∧
    Prog.calm (promote (sampleHost sampleDeclared) id sampleLinks (fun call => call = .replace "Main.lean")
      (sampleTrial sampleHole sampleProof).baseline sampleReceipt "1") { files := Dict.ofList [("Main.lean", sampleHole)] } =
        (.error .os_error, { files := Dict.ofList [("Main.lean", sampleHole)], staged := [("Main.lean", sampleProof)] }) := by
  refine ⟨sample_verified, by decide, ?_⟩
  rfl

end LeanFlow.Native
