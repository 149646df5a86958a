import Mathlib.Data.List.Basic

/-! Regular expressions, matched as backtracking engines do.

A match tries the alternatives in order and takes the first that the rest of the
expression goes on with; a repetition tries as many turns as it can. The rest of the
expression is a continuation. `run_sound` says what was matched, in terms of `Spans`,
which knows no order. -/
namespace LeanFlow.General

inductive Regex (α : Type) where
  | empty
  /-- One symbol. -/
  | one (p : α → Bool)
  /-- A test of the symbols on both sides; nothing is taken. -/
  | edge (p : Option α → Option α → Bool)
  | seq (r s : Regex α)
  | alt (r s : Regex α)
  | star (r : Regex α)
  /-- Remember what was matched under a number. -/
  | group (i : Nat) (r : Regex α)

namespace Regex
variable {α : Type}

def opt (r : Regex α) : Regex α := .alt r .empty

def plus (r : Regex α) : Regex α := .seq r (.star r)

/-- One expression after the other. -/
def all (rs : List (Regex α)) : Regex α := rs.foldr .seq .empty

/-- The first of the expressions that goes on. -/
def any (r : Regex α) (rs : List (Regex α)) : Regex α := rs.foldl .alt r

/-- A word, symbol by symbol. -/
def word [DecidableEq α] (w : List α) : Regex α := all (w.map fun c => .one (· == c))

/-- A position: the symbol before it, what follows, and the groups that were matched, each
with what follows it. -/
structure At (α : Type) where
  before : Option α
  rest : List α
  groups : List (Nat × List α × List α) := []

/-- What lies between a position and a later one. -/
def At.upTo (a b : At α) : List α := a.rest.take (a.rest.length - b.rest.length)

def At.group (a : At α) (i : Nat) : Option (List α) := (a.groups.find? (·.1 == i)).map (·.2.1)

/-- What follows a group. -/
def At.after (a : At α) (i : Nat) : Option (List α) := (a.groups.find? (·.1 == i)).map (·.2.2)

/-- As many turns as possible, each taking a symbol at least. -/
def loop (turn : At α → (At α → Option (At α)) → Option (At α)) :
    Nat → At α → (At α → Option (At α)) → Option (At α)
  | 0, a, k => k a
  | n + 1, a, k =>
    match turn a fun b => if b.rest.length < a.rest.length then loop turn n b k else none with
    | some b => some b
    | none => k a

def run : Regex α → At α → (At α → Option (At α)) → Option (At α)
  | .empty, a, k => k a
  | .one p, a, k =>
    match a.rest with
    | [] => none
    | c :: rest => if p c then k { a with before := some c, rest } else none
  | .edge p, a, k => if p a.before a.rest.head? then k a else none
  | .seq r s, a, k => run r a fun b => run s b k
  | .alt r s, a, k =>
    match run r a k with
    | some b => some b
    | none => run s a k
  | .star r, a, k => loop (run r) a.rest.length a k
  | .group i r, a, k => run r a fun b => k { b with groups := (i, a.upTo b, b.rest) :: b.groups }

/-- The match at the start of a text. -/
def matchStart (r : Regex α) (text : List α) : Option (At α) := run r ⟨none, text, []⟩ some

/-- The first match at a position of a text or behind it. -/
def search (r : Regex α) (before : Option α) : List α → Option (At α)
  | [] => run r ⟨before, [], []⟩ some
  | c :: rest =>
    match run r ⟨before, c :: rest, []⟩ some with
    | some b => some b
    | none => search r (some c) rest

/-- The matches of a text, from left to right, none of them empty. -/
def findall (r : Regex α) : Nat → Option α → List α → List (List α)
  | 0, _, _ => []
  | _ + 1, _, [] => []
  | n + 1, before, c :: rest =>
    match run r ⟨before, c :: rest, []⟩ some with
    | some b =>
      if b.rest.length < rest.length + 1 then (At.upTo ⟨before, c :: rest, []⟩ b) :: findall r n b.before b.rest
      else findall r n (some c) rest
    | none => findall r n (some c) rest

/-! ### What was matched -/

/-- A regular expression matches from one position to another. -/
inductive Spans : Regex α → At α → At α → Prop
  | empty (a : At α) : Spans .empty a a
  | one {p : α → Bool} {c : α} (before : Option α) (rest : List α) (groups : List (Nat × List α × List α)) (h : p c = true) :
      Spans (.one p) ⟨before, c :: rest, groups⟩ ⟨some c, rest, groups⟩
  | edge {p : Option α → Option α → Bool} {a : At α} (h : p a.before a.rest.head? = true) : Spans (.edge p) a a
  | seq {r s : Regex α} {a b c : At α} (h : Spans r a b) (h' : Spans s b c) : Spans (.seq r s) a c
  | left {r s : Regex α} {a b : At α} (h : Spans r a b) : Spans (.alt r s) a b
  | right {r s : Regex α} {a b : At α} (h : Spans s a b) : Spans (.alt r s) a b
  | done (r : Regex α) (a : At α) : Spans (.star r) a a
  | turn {r : Regex α} {a b c : At α} (h : Spans r a b) (h' : Spans (.star r) b c) : Spans (.star r) a c
  | group {i : Nat} {r : Regex α} {a b : At α} (h : Spans r a b) :
      Spans (.group i r) a { b with groups := (i, a.upTo b, b.rest) :: b.groups }

theorem loop_sound {r : Regex α} (hturn : ∀ (a : At α) (k : At α → Option (At α)) (b : At α), run r a k = some b →
      ∃ c, Spans r a c ∧ k c = some b) {n : Nat} {a b : At α} {k : At α → Option (At α)}
    (h : loop (run r) n a k = some b) : ∃ c, Spans (.star r) a c ∧ k c = some b := by
  induction n generalizing a with
  | zero => exact ⟨a, .done r a, h⟩
  | succ n ih =>
    rw [loop] at h
    split at h
    · rename_i c hc
      obtain rfl := Option.some.inj h
      obtain ⟨d, hd, hrest⟩ := hturn a _ _ hc
      split at hrest
      · obtain ⟨e, he, hk⟩ := ih hrest
        exact ⟨e, .turn hd he, hk⟩
      · cases hrest
    · exact ⟨a, .done r a, h⟩

/-- A match goes on from a position that the expression spans to. -/
theorem run_sound (r : Regex α) (a : At α) (k : At α → Option (At α)) (b : At α) (h : run r a k = some b) :
    ∃ c, Spans r a c ∧ k c = some b := by
  induction r generalizing a k b with
  | empty => exact ⟨a, .empty a, h⟩
  | one p =>
    obtain ⟨before, rest, groups⟩ := a
    cases rest with
    | nil => cases h
    | cons c rest =>
      rw [run] at h
      dsimp only at h
      split at h
      · exact ⟨_, .one before rest groups ‹_›, h⟩
      · cases h
  | edge p =>
    rw [run] at h
    split at h
    · exact ⟨a, .edge ‹_›, h⟩
    · cases h
  | seq r s ihr ihs =>
    obtain ⟨c, hc, h⟩ := ihr a _ b h
    obtain ⟨d, hd, h⟩ := ihs c k b h
    exact ⟨d, .seq hc hd, h⟩
  | alt r s ihr ihs =>
    rw [run] at h
    split at h
    · rename_i c hc
      obtain rfl := Option.some.inj h
      obtain ⟨d, hd, hk⟩ := ihr a k _ hc
      exact ⟨d, .left hd, hk⟩
    · obtain ⟨d, hd, hk⟩ := ihs a k b h
      exact ⟨d, .right hd, hk⟩
  | star r ih => exact loop_sound ih h
  | group i r ih =>
    obtain ⟨c, hc, h⟩ := ih a _ b h
    exact ⟨_, .group hc, h⟩

/-- The first of the expressions in a row spans to where the others go on. -/
theorem run_all_cons {r : Regex α} {rs : List (Regex α)} {a b : At α} {k : At α → Option (At α)}
    (h : run (all (r :: rs)) a k = some b) : ∃ c, Spans r a c ∧ run (all rs) c k = some b :=
  run_sound r a (fun c => run (all rs) c k) b h

/-- What is left is the end of what was there. -/
theorem Spans.suffix {r : Regex α} {a b : At α} (h : Spans r a b) : b.rest <:+ a.rest := by
  induction h with
  | empty | edge | done => exact List.suffix_refl _
  | one => exact List.suffix_cons ..
  | seq h h' ih ih' => exact ih'.trans ih
  | left h ih | right h ih | group h ih => exact ih
  | turn h h' ih ih' => exact ih'.trans ih

/-- There is no group in the expression. -/
def groupless : Regex α → Bool
  | .empty | .one _ | .edge _ => true
  | .seq r s | .alt r s => r.groupless && s.groupless
  | .star r => r.groupless
  | .group .. => false

theorem groupless_word [DecidableEq α] (w : List α) : (word w).groupless = true := by
  induction w with
  | nil => rfl
  | cons c w ih => exact ih

theorem Spans.groups {r : Regex α} {a b : At α} (h : Spans r a b) (hr : r.groupless = true) : b.groups = a.groups := by
  induction h with
  | empty | edge | done | one => rfl
  | seq h h' ih ih' =>
    obtain ⟨hr, hs⟩ := Bool.and_eq_true_iff.mp hr
    exact (ih' hs).trans (ih hr)
  | left h ih => exact ih (Bool.and_eq_true_iff.mp hr).1
  | right h ih => exact ih (Bool.and_eq_true_iff.mp hr).2
  | turn h h' ih ih' => exact (ih' hr).trans (ih hr)
  | group h ih => cases hr

theorem Spans.of_word [DecidableEq α] {w : List α} {a b : At α} (h : Spans (word w) a b) : a.rest = w ++ b.rest := by
  induction w generalizing a with
  | nil =>
    cases h
    rfl
  | cons c w ih =>
    cases h with
    | seq h h' =>
      cases h with
      | one before rest groups hc =>
        have hrest : rest = w ++ b.rest := ih h'
        rw [hrest, beq_iff_eq.mp hc]
        rfl

theorem Spans.of_any {r : Regex α} {rs : List (Regex α)} {a b : At α} (h : Spans (any r rs) a b) :
    ∃ s ∈ r :: rs, Spans s a b := by
  induction rs generalizing r with
  | nil => exact ⟨r, List.mem_singleton_self r, h⟩
  | cons s rs ih =>
    obtain ⟨t, ht, hspans⟩ := ih h
    rcases List.mem_cons.mp ht with rfl | ht
    · cases hspans with
      | left h => exact ⟨r, List.mem_cons_self .., h⟩
      | right h => exact ⟨s, List.mem_cons_of_mem _ (List.mem_cons_self ..), h⟩
    · exact ⟨t, List.mem_cons_of_mem _ (List.mem_cons_of_mem _ ht), hspans⟩

/-! ### Repetitions -/

/-- The last of the symbols before a position, after a text. -/
def lastOf (before : Option α) : List α → Option α
  | [] => before
  | c :: text => lastOf (some c) text

/-- A repeated symbol is taken as often as it is there, if the expression goes on from there. -/
theorem run_star_one {p : α → Bool} {k : At α → Option (At α)} {a : At α}
    (hk : (k ⟨lastOf a.before (a.rest.takeWhile p), a.rest.dropWhile p, a.groups⟩).isSome = true) :
    run (.star (.one p)) a k = k ⟨lastOf a.before (a.rest.takeWhile p), a.rest.dropWhile p, a.groups⟩ := by
  obtain ⟨before, rest, groups⟩ := a
  simp only [run] at hk ⊢
  induction rest generalizing before with
  | nil => rfl
  | cons c rest ih =>
    rw [List.length_cons, loop]
    by_cases hc : p c
    · simp only [List.takeWhile_cons_of_pos hc, List.dropWhile_cons_of_pos hc, lastOf] at hk ⊢
      obtain ⟨b, hb⟩ := Option.isSome_iff_exists.mp hk
      have hrest := ih (some c) hk
      rw [hb] at hrest
      simp [hc, hrest, hb]
    · simp [hc, lastOf]

/-- A loop that has a turn for each symbol needs no more. -/
theorem loop_succ {r : Regex α} {k : At α → Option (At α)} {n : Nat} {a : At α} (h : a.rest.length ≤ n) :
    loop (run r) (n + 1) a k = loop (run r) n a k := by
  induction n generalizing a with
  | zero =>
    have hnone : run r a (fun b => if b.rest.length < a.rest.length then k b else none) = none := by
      refine Option.eq_none_iff_forall_ne_some.mpr fun b hb => ?_
      obtain ⟨c, -, hc⟩ := run_sound r a _ b hb
      split at hc
      · omega
      · cases hc
    simp only [loop]
    rw [hnone]
  | succ n ih =>
    have hturn : (fun b : At α => if b.rest.length < a.rest.length then loop (run r) (n + 1) b k else none) =
        fun b => if b.rest.length < a.rest.length then loop (run r) n b k else none := by
      funext b
      by_cases hlt : b.rest.length < a.rest.length
      · rw [if_pos hlt, if_pos hlt, ih (by omega)]
      · rw [if_neg hlt, if_neg hlt]
    rw [loop, hturn]
    rfl

theorem loop_enough {r : Regex α} {k : At α → Option (At α)} {n : Nat} {a : At α} (h : a.rest.length ≤ n) :
    loop (run r) n a k = run (.star r) a k := by
  induction h with
  | refl => rfl
  | step h ih => rw [loop_succ h, ih]

/-- A repetition takes a turn if it can, else it is done. -/
theorem run_star (r : Regex α) (a : At α) (k : At α → Option (At α)) :
    run (.star r) a k =
      (run r a fun b => if b.rest.length < a.rest.length then run (.star r) b k else none).or (k a) := by
  have hturn : (fun b : At α => if b.rest.length < a.rest.length then loop (run r) a.rest.length b k else none) =
      fun b => if b.rest.length < a.rest.length then run (.star r) b k else none := by
    funext b
    by_cases hlt : b.rest.length < a.rest.length
    · rw [if_pos hlt, if_pos hlt, loop_enough (Nat.le_of_lt hlt)]
    · rw [if_neg hlt, if_neg hlt]
  rw [← loop_enough (Nat.le_succ _), loop, hturn]
  cases run r a _ <;> rfl

theorem run_opt (r : Regex α) {a : At α} {k : At α → Option (At α)} (hk : (k a).isSome = true) :
    (run (opt r) a k).isSome = true := by
  unfold opt
  simp only [run]
  cases run r a k with
  | none => exact hk
  | some b => rfl

theorem run_plus_one {p : α → Bool} {k : At α → Option (At α)} {a : At α} {w v : List α} (hrest : a.rest = w ++ v)
    (hne : w ≠ []) (hw : ∀ c ∈ w, p c = true) (hv : v.head?.all (fun c => !p c) = true)
    (hk : ∀ before, (k ⟨before, v, a.groups⟩).isSome = true) :
    ∃ before, run (plus (.one p)) a k = k ⟨before, v, a.groups⟩ := by
  obtain ⟨before, rest, groups⟩ := a
  obtain rfl : rest = w ++ v := hrest
  cases w with
  | nil => exact absurd rfl hne
  | cons c w =>
    obtain ⟨hc, hw⟩ := List.forall_mem_cons.mp hw
    have hdrop : (w ++ v).dropWhile p = v := by
      rw [List.dropWhile_append_of_pos hw]
      cases v with
      | nil => rfl
      | cons d v =>
        have hd : p d = false := by simpa using hv
        exact List.dropWhile_cons_of_neg (by simp [hd])
    refine ⟨lastOf (some c) ((w ++ v).takeWhile p), ?_⟩
    have hstar := run_star_one (p := p) (k := k) (a := ⟨some c, w ++ v, groups⟩) (by rw [hdrop]; exact hk _)
    rw [hdrop] at hstar
    simpa [plus, run, hc] using hstar

end Regex

end LeanFlow.General
