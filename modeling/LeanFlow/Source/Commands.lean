import LeanFlow.Source.Document
import LeanFlow.Source.LeanTokens
import Mathlib.Data.List.TakeWhile

/-! What a replacement starts.

`core_commands` are the keywords of Lean's own commands. A line of code starts a command
with such a keyword or with `#`, behind the modifiers and attribute lists of the command
and behind an `open` or `set_option` that holds for it alone; a text that ends there
starts a command with what follows it.

The gate looks for keywords anywhere in what the mask leaves, but knows only some of them
(`replacement_commands_exact`). -/
namespace LeanFlow.Source
open General

/-! ### Commands -/

/-- The keywords the gate lacks. -/
def missing_commands : List Text :=
  ["add_decl_doc", "notation", "infix", "infixl", "infixr", "prefix", "postfix", "declare_syntax_cat",
    "binder_predicate", "unif_hint", "run_elab", "run_meta", "seal", "unseal", "grind_pattern",
    "simproc", "dsimproc", "simproc_decl", "dsimproc_decl", "builtin_simproc", "builtin_dsimproc",
    "builtin_simproc_decl", "builtin_dsimproc_decl", "cbv_simproc", "cbv_simproc_decl",
    "builtin_cbv_simproc", "builtin_cbv_simproc_decl", "simproc_pattern%", "builtin_simproc_pattern%",
    "cbv_simproc_pattern%", "builtin_cbv_simproc_pattern%", "register_sym_simp", "register_sym_dsimp",
    "reset_grind_attrs%", "grind_propagator", "builtin_grind_propagator", "grind_annotated",
    "gen_injective_theorems%", "init_grind_norm", "init_quot", "docs_to_verso",
    "recommended_spelling", "register_error_explanation", "register_tactic_tag", "register_try?_tactic",
    "tactic_extension", "set_library_suggestions", "deprecated_module", "deprecated_syntax",
    "assert_not_exists", "assert_not_imported", "with_weak_namespace", "unlock_limits",
    "declare_simp_like_tactic", "norm_cast_add_elim", "declare_int_theorems", "declare_uint_theorems",
    "declare_bitwise_int_theorems", "declare_bitwise_uint_theorems", "declare_sint_simprocs",
    "declare_uint_simprocs", "declare_eval_bin", "declare_eval_bin_bitwise", "declare_eval_bin_bool_pred",
    "declare_config_elab", "declare_config_elab_legacy", "declare_command_config_elab",
    "declare_command_config_elab_legacy", "declare_core_config_elab", "declare_term_config_elab",
    "def_eval_config_item", "register_option", "register_builtin_option", "register_linter_set",
    "register_simp_attr", "register_sym_simp_attr", "register_grind_attr", "register_label_attr",
    "elab_stx_quot", "aux_def", "end_local_scope", "show_panel_widgets", "postprocess_traces", "reprove",
    "test_extern"].map String.toList

/-- The keywords of Lean's own commands. -/
def core_commands : List Text :=
  ["theorem", "example", "def", "abbrev", "opaque", "axiom", "instance", "class", "structure",
    "inductive", "coinductive", "mutual", "namespace", "section", "end", "import", "prelude",
    "universe", "variable", "include", "omit", "attribute", "export", "syntax", "macro",
    "macro_rules", "elab", "elab_rules", "initialize", "builtin_initialize", "run_cmd",
    "deriving"].map String.toList ++ missing_commands

/-- What may stand before the keyword of a command. -/
def modifiers : List Text :=
  ["private", "protected", "public", "noncomputable", "meta", "unsafe", "partial", "nonrec", "local",
    "scoped"].map String.toList

/-- Commands that hold for one command alone when their `in` follows. -/
def scoping_commands : List Text := ["open", "set_option"].map String.toList

/-- Behind `]`, that of the attribute list of a declaration. -/
def behind_list : Nat → Text → Text
  | _, [] => []
  | depth, c :: rest =>
    if c = '[' then behind_list (depth + 1) rest
    else if c = ']' then if depth ≤ 1 then rest else behind_list (depth - 1) rest
    else behind_list depth rest

section Commands

variable (C : CharClass)

/-- No character that would go on with an identifier. -/
def keywordEnd (c : Option Char) : Bool :=
  c.all fun c => !(C.word c || c == '\'' || c == '!' || c == '?' || c == '.')

/-- A keyword at the start of a text. -/
def opensWith (text keyword : Text) : Bool :=
  keyword.isPrefixOf text && (keyword.getLast? == some '%' || keywordEnd C (text.drop keyword.length).head?)

/-- Behind the `in` of a scoping command, which stands on its line before any other command. -/
def own_in (previous : Option Char) : Text → Option Text
  | [] => none
  | c :: rest =>
    if c = '\n' then none
    else if keywordEnd C previous && opensWith C (c :: rest) "in".toList then some (rest.drop 1)
    else if keywordEnd C previous && (scoping_commands ++ core_commands).any (opensWith C (c :: rest)) then none
    else own_in (some c) rest

/-- Whether a line starts a command; `pending` tells that something of it has been read.
What counts as a command and when a scoping one without its `in` counts are parameters. -/
def starts_command (command : Text → Bool) (unscoped : Bool → Text → Bool) : Nat → Bool → Text → Bool
  | 0, _, _ => false
  | fuel + 1, pending, text =>
    let text := text.dropWhile fun c => lean_space c && (pending || c != '\n')
    if text = [] then pending
    else if "@[".toList.isPrefixOf text then starts_command command unscoped fuel true (behind_list 0 (text.drop 1))
    else
      match modifiers.find? (opensWith C text), scoping_commands.find? (opensWith C text) with
      | some modifier, _ => starts_command command unscoped fuel true (text.drop modifier.length)
      | none, some scoping =>
        match own_in C none (text.drop scoping.length) with
        | some behind => starts_command command unscoped fuel true behind
        | none => unscoped pending text
      | none, none => command text

/-- What follows each line break. -/
def later_lines : Text → List Text
  | [] => []
  | c :: rest => if c = '\n' then rest :: later_lines rest else later_lines rest

/-- Some line of the code starts a command. -/
def starts_some (command : Text → Bool) (unscoped : Bool → Text → Bool) (code : Text) : Bool :=
  (code :: later_lines code).any (starts_command C command unscoped (code.length + 1) false)

def hash_command : Text → Bool
  | '#' :: c :: _ => c.isAlpha || c == '_'
  | _ => false

def core_command (text : Text) : Bool := core_commands.any (opensWith C text) || hash_command text

/-- Some line of the code starts one of Lean's own commands. -/
def starts_core : Text → Bool := starts_some C (core_command C) fun _ _ => true

def missing_command (text : Text) : Bool := missing_commands.any (opensWith C text)

/-- The line of an unscoped command has an `in` that is not its own. -/
def seeming_in (pending : Bool) (text : Text) : Bool := pending || mentionsIn C none (text.takeWhile (· ≠ '\n'))

/-- Some line of the code starts a command that the gate does not see. -/
def starts_unseen : Text → Bool := starts_some C (missing_command C) (seeming_in C)

end Commands

example : starts_core .ascii "@[simp] private def f := 1".toList = true := by decide +kernel

/-! ### What the gate has seen -/

section Gate

variable {C : CharClass}

theorem missing_core : ∀ keyword ∈ missing_commands, keyword ∈ core_commands :=
  fun _ h => List.mem_append_right _ h

theorem core_covered : ∀ keyword ∈ core_commands, keyword ∈ commands ∨ keyword ∈ missing_commands := by
  intro keyword h
  refine (List.mem_append.mp h).imp_left fun h => List.map_subset _ ?_ h
  simp

theorem commands_word : ∀ keyword ∈ commands, keyword.head?.any (fun c => c.isAlpha && decide (c.val < 128)) = true := by
  decide +kernel

theorem commands_plain : ∀ keyword ∈ commands, (keyword.getLast? == some '%') = false := by decide +kernel

theorem modifiers_plain : ∀ keyword ∈ modifiers, (keyword.getLast? == some '%') = false := by decide +kernel

theorem endsToken_of_keywordEnd {c : Option Char} (h : keywordEnd C c = true) : endsToken C c = true := by
  cases c with
  | none => rfl
  | some c =>
    simp only [keywordEnd, endsToken, Option.all_some, Bool.not_eq_true', Bool.or_eq_false_iff] at h ⊢
    exact ⟨h.1.1.1.1, h.1.1.1.2⟩

/-- The search goes through every position. -/
theorem command_nowhere {previous : Option Char} {text : Text} (h : findCommand C previous text = none) {front back : Text} {c : Char}
    (hsplit : text = front ++ c :: back) : commandAt C (front.getLast?.or previous) (c :: back) = none := by
  induction front generalizing previous text with
  | nil =>
    subst hsplit
    exact (Option.or_eq_none_iff.mp h).1
  | cons d front ih =>
    subst hsplit
    have hrest := ih (Option.or_eq_none_iff.mp h).2 rfl
    rw [List.getLast?_cons]
    cases hlast : front.getLast? with
    | none => simpa [hlast] using hrest
    | some last => simpa [hlast] using hrest

theorem no_keyword {previous : Option Char} {text keyword : Text} (h : commandAt C previous text = none)
    (hprevious : startsToken C previous = true) (hkeyword : keyword ∈ commands) : opensWith C text keyword = false := by
  rw [Bool.eq_false_iff]
  intro hopens
  obtain ⟨hhead, hend⟩ := Bool.and_eq_true_iff.mp hopens
  rw [commands_plain keyword hkeyword, Bool.false_or] at hend
  have hnone := List.find?_eq_none.mp (Option.or_eq_none_iff.mp h).1 keyword hkeyword
  rw [hprevious, hhead, endsToken_of_keywordEnd hend] at hnone
  exact hnone rfl

theorem no_hash {previous : Option Char} {text : Text} (h : commandAt C previous text = none) : hash_command text = false := by
  have hnone := (Option.or_eq_none_iff.mp h).2
  unfold hash_command
  split
  · rename_i c rest
    simpa using hnone
  · rfl

/-! ### Positions -/

/-- A position that no identifier runs across. -/
def Fresh (C : CharClass) (front text : Text) : Prop :=
  text.head?.any C.word = true → startsToken C front.getLast? = true

theorem not_word {c : Char} (h : c.val < 128) (hplain : (c.isAlphanum || c == '_') = false) : C.word c = false := by
  rw [C.word_ascii c h, hplain]

theorem startsToken_of_not_word {c : Char} (h : c.val < 128) (hplain : (c.isAlphanum || c == '_' || c == '\'' || c == '.') = false) :
    startsToken C (some c) = true := by
  simp only [Bool.or_eq_false_iff] at hplain
  simp [startsToken, C.word_ascii c h, hplain]

theorem fresh_last {front text : Text} {c : Char} (hlast : front.getLast? = some c) (h : c.val < 128)
    (hplain : (c.isAlphanum || c == '_' || c == '\'' || c == '.') = false) : Fresh C front text := by
  intro _
  rw [hlast]
  exact startsToken_of_not_word h hplain

theorem fresh_skip {front text : Text} {p : Char → Bool} (hp : ∀ c, p c = true → lean_space c = true) (h : Fresh C front text) :
    Fresh C (front ++ text.takeWhile p) (text.dropWhile p) := by
  cases hspaces : (text.takeWhile p).getLast? with
  | none =>
    have hnone := List.getLast?_eq_none_iff.mp hspaces
    have htext : text.dropWhile p = text := by
      have := List.takeWhile_append_dropWhile (p := p) (l := text)
      rwa [hnone, List.nil_append] at this
    rw [hnone, htext, List.append_nil]
    exact h
  | some c =>
    have hspace : lean_space c = true := hp c (List.mem_takeWhile_imp (List.mem_of_getLast? hspaces))
    have hlast : (front ++ text.takeWhile p).getLast? = some c := by rw [List.getLast?_append, hspaces, Option.some_or]
    simp only [lean_space, Bool.or_eq_true, beq_iff_eq] at hspace
    rcases hspace with ((rfl | rfl) | rfl) | rfl <;> exact fresh_last hlast (by decide) (by decide)

theorem word_ends {text keyword : Text} (hopens : opensWith C text keyword = true) (hplain : (keyword.getLast? == some '%') = false) :
    (text.drop keyword.length).head?.any C.word = false := by
  obtain ⟨-, hend⟩ := Bool.and_eq_true_iff.mp hopens
  rw [hplain, Bool.false_or] at hend
  cases hhead : (text.drop keyword.length).head? with
  | none => rfl
  | some c =>
    rw [hhead] at hend
    rw [Option.any_some, Bool.eq_false_iff]
    intro hword
    simp [keywordEnd, hword] at hend

theorem fresh_end {front text : Text} (h : text.head?.any C.word = false) : Fresh C front text := fun hword => by
  rw [h] at hword
  cases hword

theorem behind_list_split (depth : Nat) (text : Text) :
    ∃ front, text = front ++ behind_list depth text ∧ (behind_list depth text = [] ∨ front.getLast? = some ']') := by
  induction text generalizing depth with
  | nil => exact ⟨[], rfl, Or.inl rfl⟩
  | cons c rest ih =>
    have hmore (depth : Nat) : ∃ front, c :: rest = front ++ behind_list depth rest ∧
        (behind_list depth rest = [] ∨ front.getLast? = some ']') := by
      obtain ⟨front, hsplit, hlast⟩ := ih depth
      refine ⟨c :: front, by rw [List.cons_append, ← hsplit], hlast.imp_right fun h => ?_⟩
      rw [List.getLast?_cons, h]
      rfl
    rw [behind_list]
    split
    · exact hmore _
    · split
      · rename_i hclose
        split
        · exact ⟨[c], rfl, Or.inr (by rw [hclose]; rfl)⟩
        · exact hmore _
      · exact hmore _

theorem own_in_split {previous : Option Char} {text behind : Text} (h : own_in C previous text = some behind) :
    ∃ front, text = front ++ behind ∧ behind.head?.any C.word = false := by
  induction text generalizing previous with
  | nil => cases h
  | cons c rest ih =>
    rw [own_in] at h
    split at h
    · cases h
    · split at h
      · rename_i hin
        obtain rfl := Option.some.inj h
        have hopens := (Bool.and_eq_true_iff.mp hin).2
        exact ⟨c :: rest.take 1, by rw [List.cons_append, List.take_append_drop], word_ends hopens (by decide)⟩
      · split at h
        · cases h
        · obtain ⟨front, hsplit, hhead⟩ := ih h
          exact ⟨c :: front, by rw [List.cons_append, ← hsplit], hhead⟩

/-- A fresh position of seen code starts a command with a missing keyword only. -/
theorem core_iff_missing {code front text : Text} (h : findCommand C none code = none) (hsplit : code = front ++ text)
    (hfresh : Fresh C front text) (hne : text ≠ []) : core_command C text = missing_command C text := by
  obtain ⟨c, rest, rfl⟩ := List.exists_cons_of_ne_nil hne
  have hnone := command_nowhere h hsplit
  rw [Option.or_none] at hnone
  rw [core_command, no_hash hnone, Bool.or_false, missing_command, Bool.eq_iff_iff, List.any_eq_true, List.any_eq_true]
  constructor
  · rintro ⟨keyword, hkeyword, hopens⟩
    refine ⟨keyword, (core_covered keyword hkeyword).resolve_left fun hcovered => ?_, hopens⟩
    have hhead : (c :: rest).head?.any C.word = true := by
      have hword := commands_word keyword hcovered
      obtain ⟨tail, htail⟩ := List.isPrefixOf_iff_prefix.mp (Bool.and_eq_true_iff.mp hopens).1
      cases keyword with
      | nil => cases hword
      | cons d keyword =>
        obtain ⟨rfl, -⟩ := List.cons.inj htail
        simp only [List.head?_cons, Option.any_some, Bool.and_eq_true, decide_eq_true_eq] at hword ⊢
        rw [C.word_ascii d hword.2]
        simp [Char.isAlphanum, hword.1]
    have hnokeyword := no_keyword hnone (hfresh hhead) hcovered
    rw [hopens] at hnokeyword
    cases hnokeyword
  · rintro ⟨keyword, hkeyword, hopens⟩
    exact ⟨keyword, missing_core keyword hkeyword, hopens⟩

/-! ### Lines -/

theorem splitOn_eq_lines (code : Text) : code.splitOn '\n' = (code :: later_lines code).map fun line => line.takeWhile (· ≠ '\n') := by
  induction code with
  | nil => rfl
  | cons c rest ih =>
    have hcons : (c :: rest).splitOn '\n' = if c == '\n' then [] :: rest.splitOn '\n' else (rest.splitOn '\n').modifyHead (c :: ·) :=
      List.splitOnP_cons_eq_if_modifyHead c rest
    rw [hcons, ih, later_lines]
    by_cases hbreak : c = '\n'
    · simp [hbreak]
    · simp [hbreak]

theorem mentionsIn_edge {previous : Option Char} (h : wordEdge C previous = true) (text : Text) :
    mentionsIn C previous text = mentionsIn C none text := by
  have hnone : wordEdge C none = true := rfl
  unfold mentionsIn
  split <;> simp [h, hnone]

theorem mentionsIn_skip {spaces : Text} (h : ∀ c ∈ spaces, lean_space c = true) (text : Text) :
    mentionsIn C none (spaces ++ text) = mentionsIn C none text := by
  induction spaces with
  | nil => rfl
  | cons c spaces ih =>
    obtain ⟨hc, hrest⟩ := List.forall_mem_cons.mp h
    simp only [lean_space, Bool.or_eq_true, beq_iff_eq] at hc
    have hskip : mentionsIn C none (c :: (spaces ++ text)) = mentionsIn C (some c) (spaces ++ text) := by
      rcases hc with ((rfl | rfl) | rfl) | rfl <;> rfl
    have hedge : wordEdge C (some c) = true := by
      rcases hc with ((rfl | rfl) | rfl) | rfl <;> simp [wordEdge, not_word]
    rw [List.cons_append, hskip, mentionsIn_edge hedge, ih hrest]

/-- The gate's look at a line that starts with a scoping command. -/
theorem scoped_line {text scoping : Text} (hscoped : scopedLine C (text.takeWhile (· ≠ '\n')) = true) (hscoping : scoping ∈ scoping_commands)
    (hopens : opensWith C (text.dropWhile fun c => lean_space c && c != '\n') scoping = true) :
    mentionsIn C none ((text.dropWhile fun c => lean_space c && c != '\n').takeWhile (· ≠ '\n')) = true := by
  have hspaces (c : Char) (hc : c ∈ text.takeWhile fun c => lean_space c && c != '\n') : lean_space c = true ∧ c ≠ '\n' := by
    have := List.mem_takeWhile_imp hc
    simpa using this
  have hsplit := List.takeWhile_append_dropWhile (p := fun c => lean_space c && c != '\n') (l := text)
  generalize text.takeWhile (fun c => lean_space c && c != '\n') = spaces at hspaces hsplit
  generalize text.dropWhile (fun c => lean_space c && c != '\n') = text' at hopens hsplit
  obtain ⟨hhead, hend⟩ := Bool.and_eq_true_iff.mp hopens
  obtain ⟨tail, rfl⟩ := List.isPrefixOf_iff_prefix.mp hhead
  have hfacts : (scoping.getLast? == some '%') = false ∧ '\n' ∉ scoping ∧
      (∃ c more, scoping = c :: more ∧ c.val < 128 ∧ CharClass.ascii.space c = false) ∧
      ∃ keyword ∈ ["set_option", "open"], keyword.toList = scoping := by
    rcases List.mem_cons.mp hscoping with rfl | hscoping
    · exact ⟨by decide, by decide, ⟨_, _, rfl, by decide, by decide⟩, "open", by decide, rfl⟩
    · obtain rfl := List.mem_singleton.mp hscoping
      exact ⟨by decide, by decide, ⟨_, _, rfl, by decide, by decide⟩, "set_option", by decide, rfl⟩
  obtain ⟨hplain, hsingle, ⟨c, more, hmore, hascii, hspace⟩, keyword, hlisted, rfl⟩ := hfacts
  have hline : (keyword.toList ++ tail).takeWhile (· ≠ '\n') = keyword.toList ++ tail.takeWhile (· ≠ '\n') :=
    List.takeWhile_append_of_pos fun c hc => by simpa using fun hline : c = '\n' => hsingle (hline ▸ hc)
  have hwhole : text.takeWhile (· ≠ '\n') = spaces ++ (keyword.toList ++ tail.takeWhile (· ≠ '\n')) := by
    rw [← hsplit, List.takeWhile_append_of_pos fun c hc => by simpa using (hspaces c hc).2, hline]
  have hdrop : (spaces ++ (keyword.toList ++ tail.takeWhile (· ≠ '\n'))).dropWhile C.space = keyword.toList ++ tail.takeWhile (· ≠ '\n') := by
    rw [List.dropWhile_append_of_pos fun c hc => space_of_lean (hspaces c hc).1, hmore, List.cons_append]
    refine List.dropWhile_cons_of_neg ?_
    rw [C.space_ascii c hascii, ← CharClass.ascii.space_ascii c hascii, hspace]
    decide
  have hedge : wordEdge C (tail.takeWhile (· ≠ '\n')).head? = true := by
    have hword := word_ends hopens hplain
    rw [List.drop_left] at hword
    cases tail with
    | nil => rfl
    | cons d tail =>
      rw [List.takeWhile_cons]
      split
      · simpa [wordEdge] using hword
      · rfl
  rw [hwhole, scopedLine, hdrop] at hscoped
  have hopen : (["set_option", "open"].any fun word => word.toList.isPrefixOf (keyword.toList ++ tail.takeWhile (· ≠ '\n')) &&
      wordEdge C ((keyword.toList ++ tail.takeWhile (· ≠ '\n')).drop word.length).head?) = true := by
    refine List.any_eq_true.mpr ⟨keyword, hlisted, ?_⟩
    rw [List.isPrefixOf_iff_prefix.mpr (List.prefix_append ..), ← String.length_toList, List.drop_left, hedge]
    rfl
  rw [hopen, mentionsIn_skip fun c hc => (hspaces c hc).1] at hscoped
  rw [hline]
  exact hscoped

/-- The same of a whole line, whatever stands before its keyword. -/
theorem starts_core_iff {code : Text} (h : findCommand C none code = none) (fuel : Nat) (pending : Bool) {front text : Text}
    (hsplit : code = front ++ text) (hfresh : Fresh C front text)
    (hscoped : pending = false → scopedLine C (text.takeWhile (· ≠ '\n')) = true) :
    starts_command C (core_command C) (fun _ _ => true) fuel pending text =
      starts_command C (missing_command C) (seeming_in C) fuel pending text := by
  induction fuel generalizing pending front text with
  | zero => rfl
  | succ fuel ih =>
    have hseen (scoping : Text) (hscoping : scoping ∈ scoping_commands)
        (hopens : opensWith C (text.dropWhile fun c => lean_space c && (pending || c != '\n')) scoping = true) :
        seeming_in C pending (text.dropWhile fun c => lean_space c && (pending || c != '\n')) = true := by
      cases pending with
      | true => rfl
      | false => exact scoped_line (hscoped rfl) hscoping hopens
    have hsplit' := congrArg (front ++ ·) (List.takeWhile_append_dropWhile (p := fun c => lean_space c && (pending || c != '\n')) (l := text))
    simp only [← List.append_assoc, ← hsplit] at hsplit'
    have hfresh' := fresh_skip (p := fun c => lean_space c && (pending || c != '\n')) (fun c hc => (Bool.and_eq_true_iff.mp hc).1) hfresh
    simp only [starts_command]
    generalize text.dropWhile (fun c => lean_space c && (pending || c != '\n')) = text' at hsplit' hfresh' hseen ⊢
    generalize front ++ text.takeWhile _ = front' at hsplit' hfresh'
    split
    · rfl
    · rename_i hne
      split
      · obtain ⟨list, hlist, hend⟩ := behind_list_split 0 (text'.drop 1)
        refine @ih true (front' ++ text'.take 1 ++ list) _ ?_ ?_ nofun
        · rw [List.append_assoc, List.append_assoc, ← hlist, List.take_append_drop, hsplit']
        · rcases hend with hend | hend
          · exact fresh_end (by rw [hend]; rfl)
          · exact fresh_last (by rw [List.getLast?_append, hend]; rfl) (by decide) (by decide)
      · split
        · rename_i modifier hfind
          refine @ih true (front' ++ text'.take modifier.length) _ ?_ ?_ nofun
          · rw [List.append_assoc, List.take_append_drop, hsplit']
          · exact fresh_end (word_ends (List.find?_some hfind) (modifiers_plain modifier (List.mem_of_find?_eq_some hfind)))
        · rename_i scoping _ hfind
          split
          · rename_i behind hown
            obtain ⟨middle, hmiddle, hhead⟩ := own_in_split hown
            refine @ih true (front' ++ text'.take scoping.length ++ middle) _ ?_ (fresh_end hhead) nofun
            rw [List.append_assoc, List.append_assoc, ← hmiddle, List.take_append_drop, hsplit']
          · exact (hseen scoping (List.mem_of_find?_eq_some hfind) (List.find?_some hfind)).symm
        · exact core_iff_missing h hsplit'.symm hfresh' hne

theorem later_lines_split {text line : Text} (h : line ∈ later_lines text) : ∃ front, text = front ++ line ∧ front.getLast? = some '\n' := by
  induction text with
  | nil => cases h
  | cons c rest ih =>
    have hmore (h : line ∈ later_lines rest) : ∃ front, c :: rest = front ++ line ∧ front.getLast? = some '\n' := by
      obtain ⟨front, hsplit, hlast⟩ := ih h
      refine ⟨c :: front, by rw [List.cons_append, ← hsplit], ?_⟩
      rw [List.getLast?_cons, hlast]
      rfl
    rw [later_lines] at h
    split at h
    · rename_i hbreak
      rcases List.mem_cons.mp h with rfl | h
      · exact ⟨[c], rfl, by rw [hbreak]; rfl⟩
      · exact hmore h
    · exact hmore h

theorem gate_of_validate {replacement code : Text} (h : validate_hole_replacement C replacement = .ok ())
    (hcode : lean_code_mask replacement = .ok code) :
    findCommand C none code = none ∧ ∀ line ∈ code.splitOn '\n', scopedLine C line = true := by
  have hrun : (match findCommand C none code with
      | some command => Except.error ⟨"a sorry replacement cannot introduce command '" ++ String.ofList command ++ "'"⟩
      | none =>
        if (code.splitOn '\n').all (scopedLine C) then Except.ok ()
        else Except.error ⟨"a sorry replacement cannot introduce an unscoped command"⟩) = Except.ok (ε := ValueError) () := by
    rwa [validate_hole_replacement, hcode] at h
  split at hrun
  · cases hrun
  · rename_i hfind
    split at hrun
    · rename_i hall
      exact ⟨hfind, List.all_eq_true.mp hall⟩
    · cases hrun

/-- The same lines start a command as the gate does not see one. -/
theorem starts_core_of_gate {code : Text} (hfind : findCommand C none code = none)
    (hscoped : ∀ line ∈ code.splitOn '\n', scopedLine C line = true) : starts_core C code = starts_unseen C code := by
  have hlines (line : Text) (hline : line ∈ code :: later_lines code) : scopedLine C (line.takeWhile (· ≠ '\n')) = true := by
    refine hscoped _ ?_
    rw [splitOn_eq_lines]
    exact List.mem_map_of_mem hline
  have hsame (line : Text) (hline : line ∈ code :: later_lines code) :
      starts_command C (core_command C) (fun _ _ => true) (code.length + 1) false line =
        starts_command C (missing_command C) (seeming_in C) (code.length + 1) false line := by
    rcases List.mem_cons.mp hline with rfl | hlater
    · exact @starts_core_iff C _ hfind _ _ [] _ rfl (fun _ => rfl) fun _ => hlines _ hline
    · obtain ⟨front, hsplit, hlast⟩ := later_lines_split hlater
      exact starts_core_iff hfind _ _ hsplit (fresh_last hlast (by decide) (by decide)) fun _ => hlines _ hline
  rw [starts_core, starts_unseen, starts_some, starts_some, Bool.eq_iff_iff, List.any_eq_true, List.any_eq_true]
  exact exists_congr fun line => and_congr_right fun hline => by rw [hsame line hline]

end Gate

end LeanFlow.Source
