import LeanFlow.General.Except
import LeanFlow.Source.Lexing
import LeanFlow.Source.Tokens

/-! The import commands of a source.

`imported_modules` reads headers of the simple form, an `import` at the start of a line
and one module name after it, and raises for any other `import` in the code.
`imported_complete` says that it overlooks none. -/
namespace LeanFlow.Cache
open General Source

section Imports

variable (C : CharClass) (digit : Char → Bool)

def importWord : Text := "import".toList

/-! ### Positions -/

/-- The matches of `(?<![\w'.])import(?![\w'])` from the position `pos` on. -/
def words (previous : Option Char) (pos : Nat) : Text → List Nat
  | [] => []
  | c :: rest =>
    if startsToken C previous && importWord.isPrefixOf (c :: rest) && endsToken C ((c :: rest).drop 6).head? then
      pos :: words (some c) (pos + 1) rest
    else words (some c) (pos + 1) rest

/-- A character of `[ \t]`. -/
def isBlank (c : Char) : Bool := c == ' ' || c == '\t'

/-- The matches of `(?m)^[ \t]*import(?=[ \t])`, by the position of the word; `start` says whether only
blanks came before on the line. -/
def commands (start : Bool) (pos : Nat) : Text → List Nat
  | [] => []
  | c :: rest =>
    let more := commands (c == '\n' || (start && isBlank c)) (pos + 1) rest
    if start && importWord.isPrefixOf (c :: rest) && ((c :: rest).drop 6).head?.any isBlank then pos :: more
    else more

/-! ### Module names -/

/-- The characters no quoted component contains. -/
def closing : List Char := ['»', '.', '/', '\\', '\r', '\n']

/-- The length of `(?:«[^»./\\\r\n]+»|[^\W\d][\w']*)` at the start of a text. -/
def component : Text → Option Nat
  | [] => none
  | c :: rest =>
    if c = '«' then
      let inner := rest.takeWhile (· ∉ closing)
      if inner ≠ [] ∧ (rest.drop inner.length).head? = some '»' then some (inner.length + 2) else none
    else if C.word c && !digit c then some (1 + (rest.takeWhile fun c => C.word c || c == '\'').length)
    else none

/-- The length of `(?:\.COMPONENT)*`; each turn takes a character at least. -/
def components : Nat → Text → Nat
  | fuel + 1, '.' :: rest =>
    match component C digit rest with
    | some n => 1 + n + components fuel (rest.drop n)
    | none => 0
  | _, _ => 0

/-- The module name at the start of a text. -/
def moduleName (text : Text) : Option Text :=
  (component C digit text).map fun n => text.take (n + components C digit text.length (text.drop n))

/-- `name.replace("«", "").replace("»", "")`. -/
def unquoted (name : Text) : String := String.ofList (name.filter fun c => c ≠ '«' ∧ c ≠ '»')

/-! ### Reading -/

/-- The module of the command at a position. -/
def read_import (source masked : Text) (p : Nat) : Except ValueError String :=
  let after := source.drop (p + 6)
  let blanks := (after.takeWhile isBlank).length
  match if blanks = 0 then none else moduleName C digit (after.drop blanks) with
  | none => .error ⟨"unsupported import module syntax"⟩
  | some name =>
    let stop := p + 6 + blanks + name.length
    let line_end := p + 6 + (after.takeWhile (· ≠ '\n')).length
    if ((masked.take line_end).drop stop).all C.space then .ok (unquoted name)
    else .error ⟨"unsupported import module syntax"⟩

/-- Read simple import headers; reject other syntax so cache keys fail closed. -/
def imported_modules (source : Text) : Except ValueError (List String) := do
  let masked ← lean_code_mask source
  let found := commands true 0 masked
  let tokens := words C none 0 masked
  if found.any (· ∉ tokens) || tokens.any (· ∉ found) then .error ⟨"unsupported import command layout"⟩
  else found.mapM (read_import C digit source masked)

example : imported_modules .ascii Char.isDigit "import Mathlib.Tactic -- import X\n/- import Y -/\nimport «Odd Name».Sub\n".toList =
    .ok ["Mathlib.Tactic", "Odd Name.Sub"] := by decide +kernel

/-! ### What is imported -/

/-- White space of Lean. -/
def isWhite (c : Char) : Bool := c == ' ' || c == '\t' || c == '\n' || c == '\r'

/-- The code has the word `import`, white space and comments after it, and then this module; a quoted name, which
the mask blanks too, is no comment. -/
structure Imports (source : Text) (module : String) : Prop where
  parts : ∃ before gap name rest, source = before ++ (importWord ++ (gap ++ (name ++ rest))) ∧
    (gap.dropWhile isWhite).head? ≠ some '«' ∧ moduleName C digit (name ++ rest) = some name ∧ module = unquoted name ∧
    ∃ before' gap' rest', lean_code_mask source = .ok (before' ++ (importWord ++ (gap' ++ rest'))) ∧
      before'.length = before.length ∧ gap'.length = gap.length ∧ gap'.all isWhite = true ∧
      startsToken C before'.getLast? = true ∧ endsToken C (gap' ++ rest').head? = true

variable {C digit}

theorem mem_words {a b : Text} {previous : Option Char} (hstarts : startsToken C (lastOr previous a) = true)
    (hends : endsToken C b.head? = true) (pos : Nat) : pos + a.length ∈ words C previous pos (a ++ (importWord ++ b)) := by
  induction a generalizing previous pos with
  | nil =>
    have hcondition : (startsToken C previous && importWord.isPrefixOf (importWord ++ b) &&
        endsToken C ((importWord ++ b).drop 6).head?) = true := by
      rw [Bool.and_eq_true, Bool.and_eq_true]
      exact ⟨⟨hstarts, List.isPrefixOf_iff_prefix.mpr ⟨b, rfl⟩⟩, hends⟩
    have hfound : words C previous pos ([] ++ (importWord ++ b)) =
        pos :: words C (some 'i') (pos + 1) ("mport".toList ++ b) := if_pos hcondition
    rw [hfound]
    exact List.mem_cons_self ..
  | cons c a ih =>
    have hmore : pos + (c :: a).length ∈ words C (some c) (pos + 1) (a ++ (importWord ++ b)) := by
      have hlast : startsToken C (lastOr (some c) a) = true := by rwa [← lastOr_cons]
      have h := ih hlast (pos + 1)
      rwa [List.length_cons, Nat.add_comm a.length 1, ← Nat.add_assoc]
    rw [List.cons_append, words]
    split
    · exact List.mem_cons_of_mem _ hmore
    · exact hmore

/-- What a module name starts with. -/
theorem head_moduleName {c : Char} {text name : Text} (h : moduleName C digit (c :: text) = some name) :
    c = '«' ∨ C.word c = true := by
  obtain ⟨n, hn, -⟩ := Option.map_eq_some_iff.mp h
  rw [component] at hn
  split at hn
  · exact Or.inl ‹_›
  · split at hn
    · exact Or.inr (Bool.and_eq_true_iff.mp ‹_›).1
    · cases hn

theorem take_takeWhile (p : Char → Bool) (text : Text) : text.take (text.takeWhile p).length = text.takeWhile p :=
  (List.prefix_iff_eq_take.mp (List.takeWhile_prefix p)).symm

/-- No component of a module name has a slash in it. -/
theorem slash_component {text : Text} {n : Nat} (h : component C digit text = some n) : '/' ∉ text.take n := by
  cases text with
  | nil => cases h
  | cons c rest =>
    rw [component] at h
    split at h
    · dsimp only at h
      split at h
      · rename_i hquote hclosed
        obtain rfl := Option.some.inj h
        obtain ⟨tail, htail⟩ := List.head?_eq_some_iff.mp hclosed.2
        have htake : (c :: rest).take ((rest.takeWhile (· ∉ closing)).length + 2) =
            c :: (rest.takeWhile (· ∉ closing) ++ ['»']) := by
          rw [List.take_succ_cons, List.take_add, take_takeWhile, htail]
          rfl
        rw [htake, hquote]
        intro hmem
        rcases List.mem_cons.mp hmem with hmem | hmem
        · cases hmem
        · rcases List.mem_append.mp hmem with hmem | hmem
          · exact absurd (List.mem_takeWhile_imp hmem) (by decide)
          · cases List.mem_singleton.mp hmem
      · cases h
    · split at h
      · rename_i hfirst
        obtain rfl := Option.some.inj h
        rw [Nat.add_comm, List.take_succ_cons, take_takeWhile]
        intro hmem
        rcases List.mem_cons.mp hmem with rfl | hmem
        · rw [C.word_ascii _ (by decide)] at hfirst
          cases hfirst
        · have hword := List.mem_takeWhile_imp hmem
          rw [C.word_ascii _ (by decide)] at hword
          cases hword
      · cases h

theorem slash_components (fuel : Nat) (text : Text) : '/' ∉ text.take (components C digit fuel text) := by
  fun_induction components C digit fuel text with
  | case1 fuel rest n hn ih =>
    rw [Nat.add_assoc, Nat.add_comm, List.take_succ_cons, List.take_add, List.mem_cons, List.mem_append]
    rintro (hmem | hmem | hmem)
    · cases hmem
    · exact slash_component hn hmem
    · exact ih hmem
  | case2 => exact List.not_mem_nil
  | case3 => exact List.not_mem_nil

/-- A module name has no slash in it. -/
theorem slash_moduleName {text name : Text} (h : moduleName C digit text = some name) : '/' ∉ name := by
  obtain ⟨n, hn, rfl⟩ := Option.map_eq_some_iff.mp h
  rw [List.take_add, List.mem_append]
  rintro (hmem | hmem)
  · exact slash_component hn hmem
  · exact slash_components _ _ hmem

theorem not_blank_of_moduleName {text name : Text} (h : moduleName C digit text = some name) :
    text.takeWhile isBlank = [] := by
  cases text with
  | nil => rfl
  | cons c text =>
    have hblank : isBlank c = false := by
      by_contra hblank
      rw [Bool.not_eq_false, isBlank, Bool.or_eq_true, beq_iff_eq, beq_iff_eq] at hblank
      rcases head_moduleName h with rfl | hword
      · rcases hblank with h | h <;> cases h
      · rcases hblank with rfl | rfl
        · rw [C.word_ascii _ (by decide)] at hword
          cases hword
        · rw [C.word_ascii _ (by decide)] at hword
          cases hword
    rw [List.takeWhile_cons_of_neg (by simp [hblank])]

theorem word_white {c : Char} (h : isWhite c = true) : C.word c = false := by
  simp only [isWhite, Bool.or_eq_true, beq_iff_eq] at h
  rcases h with ((rfl | rfl) | rfl) | rfl <;> exact C.word_ascii _ (by decide)

/-- Characters of a word are code as they stand. -/
theorem scan_word {c : Char} (h : C.word c = true) (hquote : c ≠ '«') (next : Option Char) :
    scanner.step .code c next = (c, .code) := by
  have hne {d : Char} (hd : C.word d = false) : c ≠ d := by
    rintro rfl
    rw [hd] at h
    cases h
  have hdash : c ≠ '-' := hne (C.word_ascii _ (by decide))
  have hslash : c ≠ '/' := hne (C.word_ascii _ (by decide))
  have hstring : c ≠ '"' := hne (C.word_ascii _ (by decide))
  show scanChar .code c next = (c, .code)
  rw [scanChar, if_neg fun h => hdash h.1, if_neg fun h => hslash h.1, if_neg hstring, if_neg hquote]

theorem scan_blank {c : Char} (h : isBlank c = true) (next : Option Char) : scanner.step .code c next = (c, .code) := by
  simp only [isBlank, Bool.or_eq_true, beq_iff_eq] at h
  rcases h with rfl | rfl <;> rfl

theorem white_of_blank {c : Char} (h : isBlank c = true) : isWhite c = true := by
  simp only [isBlank, Bool.or_eq_true, beq_iff_eq] at h
  rcases h with rfl | rfl <;> rfl

/-- Between an import that was read and its name there are only blanks. -/
theorem gap_blank {gap gap' tail rest' : Text} (hlength : gap'.length = gap.length)
    (hmask : (scanner.read .code (gap ++ tail) none).1 = gap' ++ rest') (hwhite : gap'.all isWhite = true)
    (hquote : (gap.dropWhile isWhite).head? ≠ some '«') {name : Text}
    (hname : moduleName C digit ((gap ++ tail).drop ((gap ++ tail).takeWhile isBlank).length) = some name) :
    gap.all isBlank = true := by
  induction gap generalizing gap' with
  | nil => rfl
  | cons c gap ih =>
    cases gap' with
    | nil => cases hlength
    | cons d gap' =>
      obtain ⟨hd, hwhite⟩ := Bool.and_eq_true_iff.mp ((List.all_cons ..).symm.trans hwhite)
      rw [List.cons_append, List.cons_append, Reader.read_cons] at hmask
      cases hblank : isBlank c with
      | true =>
        rw [scan_blank hblank] at hmask
        rw [List.cons_append, List.takeWhile_cons_of_pos hblank] at hname
        rw [List.dropWhile_cons_of_pos (white_of_blank hblank)] at hquote
        rw [List.all_cons, hblank]
        exact ih (Nat.succ.inj hlength) (List.cons.inj hmask).2 hwhite hquote hname
      | false =>
        rw [List.cons_append, List.takeWhile_cons_of_neg (by simp [hblank])] at hname
        have hc : c ≠ '«' := by
          rintro rfl
          exact hquote rfl
        have hword := (head_moduleName hname).resolve_left hc
        rw [scan_word hword hc] at hmask
        rw [← (List.cons.inj hmask).1] at hd
        rw [word_white hd] at hword
        cases hword

/-- A header that is read has the module after each of its imports. -/
theorem read_import_eq {before gap name rest before' gap' rest' masked source : Text} {module : String}
    (hsource : source = before ++ (importWord ++ (gap ++ (name ++ rest))))
    (hmasked : lean_code_mask source = .ok masked) (hparts : masked = before' ++ (importWord ++ (gap' ++ rest')))
    (hbefore : before'.length = before.length) (hgap : gap'.length = gap.length) (hwhite : gap'.all isWhite = true)
    (hquote : (gap.dropWhile isWhite).head? ≠ some '«') (hname : moduleName C digit (name ++ rest) = some name)
    (hread : read_import C digit source masked before.length = .ok module) : module = unquoted name := by
  have hafter : source.drop (before.length + 6) = gap ++ (name ++ rest) := by
    rw [hsource, ← List.append_assoc]
    exact List.drop_left' (by rw [List.length_append]; rfl)
  have hmask : (scanner.read .code (gap ++ (name ++ rest)) none).1 = gap' ++ rest' := by
    have hread := (mask_eq_ok.mp hmasked).1
    rw [hsource, hparts, Reader.read_append_fst] at hread
    obtain ⟨-, hread⟩ := List.append_inj hread (by rw [Reader.length_read, hbefore])
    rw [Reader.read_append] at hread
    obtain ⟨hword, hread⟩ := List.append_inj hread (by rw [Reader.length_read])
    have hword_letters : importWord.all (fun c => c ≠ ' ' ∧ c ≠ '\n') = true := rfl
    have hletters (c : Char) (hc : c ∈ importWord) : c ≠ ' ' ∧ c ≠ '\n' :=
      of_decide_eq_true (List.all_eq_true.mp hword_letters c hc)
    have hvisible := visible_read (a := importWord) (List.cons_ne_nil _ _) fun c hc => hletters c (hword ▸ hc)
    rw [hvisible.2] at hread
    exact hread
  have hblanks {name' : Text} (hname' : moduleName C digit
      ((gap ++ (name ++ rest)).drop ((gap ++ (name ++ rest)).takeWhile isBlank).length) = some name') :
      ((gap ++ (name ++ rest)).takeWhile isBlank).length = gap.length := by
    have hgap := gap_blank hgap hmask hwhite hquote hname'
    have hstop : (name ++ rest).takeWhile isBlank = [] := not_blank_of_moduleName hname
    rw [List.takeWhile_append_of_pos (List.all_eq_true.mp hgap), hstop, List.append_nil]
  unfold read_import at hread
  simp only [hafter] at hread
  split at hread
  · cases hread
  · rename_i name' hname'
    split at hname'
    · cases hname'
    · have hlength := hblanks hname'
      rw [hlength, List.drop_left, hname] at hname'
      obtain rfl := Option.some.inj hname'
      split at hread
      · exact (Except.ok.inj hread).symm
      · cases hread

/-- **No import is overlooked** by a header that is read. -/
theorem imported_complete {source : Text} {modules : List String}
    (hmodules : imported_modules C digit source = .ok modules) {module : String} (h : Imports C digit source module) :
    module ∈ modules := by
  obtain ⟨before, gap, name, rest, hsource, hquote, hname, rfl, before', gap', rest', hmasked, hbefore, hgap, hwhite,
    hstarts, hends⟩ := h.parts
  rw [imported_modules, hmasked] at hmodules
  change (if _ then _ else _ : Except ValueError (List String)) = .ok modules at hmodules
  split at hmodules
  · cases hmodules
  · rename_i hagree
    obtain ⟨-, htokens⟩ := Bool.or_eq_false_iff.mp (Bool.eq_false_iff.mpr hagree)
    have hlast : startsToken C (lastOr none before') = true := by
      rw [lastOr, Option.or_none]
      exact hstarts
    have hword := mem_words hlast hends 0
    have hfound : before.length ∈ commands true 0 (before' ++ (importWord ++ (gap' ++ rest'))) := by
      by_contra hnot
      refine List.any_eq_false.mp htokens before.length ?_ (decide_eq_true hnot)
      rw [← hbefore, ← Nat.zero_add before'.length]
      exact hword
    obtain ⟨module, hmodule, hread⟩ := mapM_eq_ok hmodules hfound
    rw [← read_import_eq hsource hmasked rfl hbefore hgap hwhite hquote hname hread]
    exact hmodule

end Imports

end LeanFlow.Cache
