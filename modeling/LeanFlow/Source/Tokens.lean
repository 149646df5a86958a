import LeanFlow.Source.Mask

/-! Where the `sorry` tokens of a concatenation are.

A token is found from the character before it, its five letters and the
character after it, so the tokens of `a ++ b` are those of `a` and those of `b`
when nothing of a token can cross the boundary (`Apart`). -/
namespace LeanFlow.Source

variable {C : CharClass}

/-- The character before a position: the last one of `a`, else what came before `a`. -/
def lastOr (previous : Option Char) (a : Text) : Option Char := a.getLast?.or previous

@[simp] theorem lastOr_nil (previous : Option Char) : lastOr previous [] = previous := rfl

theorem lastOr_cons (previous : Option Char) (c : Char) (a : Text) :
    lastOr previous (c :: a) = lastOr (some c) a := by
  cases a with
  | nil => rfl
  | cons d rest => simp [lastOr, List.getLast?_cons]

theorem lastOr_append (previous : Option Char) (a b : Text) :
    lastOr previous (a ++ b) = lastOr (lastOr previous a) b := by
  induction a generalizing previous with
  | nil => rfl
  | cons c rest ih => rw [List.cons_append, lastOr_cons, ih, lastOr_cons]

/-- The letters of the literal are word characters. -/
theorem word_hole {c : Char} (h : c ∈ hole) : C.word c = true := by
  simp only [hole, List.mem_cons, List.not_mem_nil, or_false] at h
  rcases h with rfl | rfl | rfl | rfl | rfl <;> rw [C.word_ascii _ (by decide)] <;> decide

variable (C) in
/-- Nothing of a token crosses the boundary: the first text ends in no word
character, or the second one starts with nothing that may follow inside a word. -/
def Apart (a b : Text) : Prop :=
  (∀ c, a.getLast? = some c → C.word c = false) ∨ endsToken C b.head? = true

theorem Apart.tail {c : Char} {a b : Text} (h : Apart C (c :: a) b) : Apart C a b := by
  rcases h with h | h
  · left
    intro d hd
    apply h
    cases a with
    | nil => cases hd
    | cons e rest => rwa [List.getLast?_cons_cons]
  · exact Or.inr h

theorem endsToken_hole {c : Char} (h : c ∈ hole) : endsToken C (some c) = false := by
  simp [endsToken, word_hole h]

/-- A prefix longer than the first text ends that text in one of its symbols and
starts the second text with another. -/
theorem prefix_across {l a b : Text} (hne : a ≠ []) (hlt : a.length < l.length)
    (h : l <+: a ++ b) :
    (∃ c ∈ l, a.getLast? = some c) ∧ ∃ d ∈ l, b.head? = some d := by
  induction a generalizing l with
  | nil => exact absurd rfl hne
  | cons c rest ih =>
    cases l with
    | nil => simp at hlt
    | cons e l =>
      obtain ⟨rfl, hl⟩ := List.cons_prefix_cons.mp h
      have hlt' : rest.length < l.length := by simpa using hlt
      cases rest with
      | nil =>
        cases l with
        | nil => simp at hlt'
        | cons f l =>
          cases b with
          | nil => simp at hl
          | cons d b =>
            obtain ⟨rfl, _⟩ := List.cons_prefix_cons.mp hl
            exact ⟨⟨e, List.mem_cons_self .., rfl⟩, f, by simp, rfl⟩
      | cons g rest =>
        obtain ⟨⟨x, hx, hlast⟩, d, hd, hhead⟩ := ih (by simp) hlt' hl
        exact ⟨⟨x, List.mem_cons_of_mem _ hx, by rw [List.getLast?_cons_cons, hlast]⟩,
          d, List.mem_cons_of_mem _ hd, hhead⟩

theorem Apart.not_across {a b : Text} (h : Apart C a b) {c d : Char} (hc : c ∈ hole)
    (hlast : a.getLast? = some c) (hd : d ∈ hole) (hhead : b.head? = some d) : False := by
  rcases h with h | h
  · have := h c hlast
    rw [word_hole hc] at this
    cases this
  · rw [hhead, endsToken_hole hd] at h
    cases h

/-- The token test at a position of the first text does not see the second one. -/
theorem tokenAt_append {a b : Text} (hne : a ≠ []) (h : Apart C a b) (previous : Option Char) :
    tokenAt C previous (a ++ b) = tokenAt C previous a := by
  unfold tokenAt
  by_cases hlt : a.length < hole.length
  · have hlong : hole.isPrefixOf (a ++ b) = false := by
      by_contra hp
      rw [Bool.not_eq_false, List.isPrefixOf_iff_prefix] at hp
      obtain ⟨⟨c, hc, hlast⟩, d, hd, hhead⟩ := prefix_across hne hlt hp
      exact h.not_across hc hlast hd hhead
    have hshort : hole.isPrefixOf a = false := by
      by_contra hp
      rw [Bool.not_eq_false, List.isPrefixOf_iff_prefix] at hp
      exact absurd hp.length_le (by omega)
    rw [hlong, hshort]
    simp
  · have hge : hole.length ≤ a.length := by omega
    have hopens : hole.isPrefixOf (a ++ b) = hole.isPrefixOf a := by
      rw [Bool.eq_iff_iff, List.isPrefixOf_iff_prefix, List.isPrefixOf_iff_prefix]
      exact ⟨fun hp => List.prefix_of_prefix_length_le hp (List.prefix_append ..) hge,
        fun hp => hp.trans (List.prefix_append ..)⟩
    rw [hopens, List.drop_append_of_le_length (show 5 ≤ a.length from hge)]
    by_cases hp : hole <+: a
    · obtain ⟨w, rfl⟩ := hp
      have hw : (hole ++ w).drop 5 = w := rfl
      rw [hw]
      cases w with
      | cons d w => simp
      | nil =>
        rcases h with h | h
        · have := h 'y' rfl
          rw [word_hole (by decide)] at this
          cases this
        · rw [List.nil_append, h]
          rfl
    · have : hole.isPrefixOf a = false := by
        rw [Bool.eq_false_iff]
        exact fun ht => hp (List.isPrefixOf_iff_prefix.mp ht)
      rw [this]
      simp

/-- The tokens of a concatenation whose parts are apart. -/
theorem tokens_append {a b : Text} (h : Apart C a b) (previous : Option Char) (pos : Nat) :
    tokens C previous pos (a ++ b) =
      tokens C previous pos a ++ tokens C (lastOr previous a) (pos + a.length) b := by
  induction a generalizing previous pos with
  | nil => simp [tokens]
  | cons c rest ih =>
    have hat : tokenAt C previous (c :: (rest ++ b)) = tokenAt C previous (c :: rest) := by
      rw [← List.cons_append]
      exact tokenAt_append (by simp) h previous
    have hpos : pos + (c :: rest).length = pos + 1 + rest.length := by
      rw [List.length_cons]
      omega
    rw [List.cons_append, tokens, tokens, hat, ih h.tail, lastOr_cons, hpos]
    split <;> rfl

/-- Before a text that starts with nothing that may follow inside a word, what came
before it does not matter. -/
theorem tokens_previous {a : Text} (h : endsToken C a.head? = true) (p q : Option Char) (pos : Nat) :
    tokens C p pos a = tokens C q pos a := by
  cases a with
  | nil => rfl
  | cons c rest =>
    have hno (r : Option Char) : tokenAt C r (c :: rest) = false := by
      have hp : hole.isPrefixOf (c :: rest) = false := by
        rw [Bool.eq_false_iff]
        intro ht
        have hc : c ∈ hole := by
          obtain ⟨rfl, _⟩ := List.cons_prefix_cons.mp (List.isPrefixOf_iff_prefix.mp ht)
          decide
        rw [List.head?_cons, endsToken_hole hc] at h
        cases h
      simp [tokenAt, hp]
    rw [tokens, tokens, hno, hno]

/-- What came before a text matters only through whether a token may start there. -/
theorem tokens_starts {p q : Option Char} (h : startsToken C p = startsToken C q) (pos : Nat) (a : Text) :
    tokens C p pos a = tokens C q pos a := by
  cases a with
  | nil => rfl
  | cons c rest => rw [tokens, tokens, tokenAt, tokenAt, h]

/-- Every token of a text lies inside it. -/
theorem tokens_bounds {a : Text} {previous : Option Char} {pos : Nat} {span : Nat × Nat}
    (h : span ∈ tokens C previous pos a) :
    pos ≤ span.1 ∧ span.2 = span.1 + 5 ∧ span.2 ≤ pos + a.length := by
  induction a generalizing previous pos with
  | nil => cases h
  | cons c rest ih =>
    rw [tokens] at h
    rw [List.length_cons]
    split at h
    · rename_i ht
      rcases List.mem_cons.mp h with rfl | h
      · simp only [tokenAt, Bool.and_eq_true] at ht
        have hl := (List.isPrefixOf_iff_prefix.mp ht.1.2).length_le
        simp only [hole, List.length_cons, List.length_nil] at hl
        dsimp only
        omega
      · obtain ⟨h1, h2, h3⟩ := ih h
        omega
    · obtain ⟨h1, h2, h3⟩ := ih h
      omega

/-- The tokens of a text at another position. -/
theorem tokens_shift (previous : Option Char) (pos n : Nat) (a : Text) :
    tokens C previous (pos + n) a = (tokens C previous pos a).map fun s => (s.1 + n, s.2 + n) := by
  induction a generalizing previous pos with
  | nil => rfl
  | cons c rest ih =>
    have hpos : pos + n + 1 = pos + 1 + n := by omega
    rw [tokens, tokens, hpos, ih]
    split
    · rw [List.map_cons, Nat.add_right_comm]
    · rfl

theorem tokens_eq_nil {previous : Option Char} {pos : Nat} {a : Text}
    (h : tokens C previous pos a = []) (target : Nat) : tokens C previous target a = [] := by
  have hzero : tokens C previous 0 a = [] := by
    rw [← Nat.zero_add pos, tokens_shift] at h
    exact List.map_eq_nil_iff.mp h
  rw [← Nat.zero_add target, tokens_shift, hzero]
  rfl

/-- A hole with room on both sides is a token. -/
theorem tokens_hole {previous : Option Char} {s : Text} (hstarts : startsToken C previous = true)
    (hends : endsToken C s.head? = true) (pos : Nat) :
    tokens C previous pos (hole ++ s) = (pos, pos + 5) :: tokens C (some 'y') (pos + 5) s := by
  simp [tokens, tokenAt, hole, hstarts, hends]

/-- A text after which a token may start is apart from whatever follows. -/
theorem apart_of_starts {a : Text} {previous : Option Char}
    (h : startsToken C (lastOr previous a) = true) (b : Text) : Apart C a b := by
  left
  intro c hc
  simp only [lastOr, hc, Option.some_or, startsToken, Option.all_some, Bool.not_eq_true',
    Bool.or_eq_false_iff] at h
  exact h.1.1

/-- The first token of a text: what stands before it, what stands after it. -/
theorem tokens_cons {x : Text} {previous : Option Char} {pos a z : Nat} {spans : List (Nat × Nat)}
    (h : tokens C previous pos x = (a, z) :: spans) :
    ∃ u v, x = u ++ hole ++ v ∧ a = pos + u.length ∧ z = a + 5 ∧ tokens C previous pos u = [] ∧
      startsToken C (lastOr previous u) = true ∧ endsToken C v.head? = true ∧
      tokens C (some 'y') z v = spans := by
  induction x generalizing previous pos with
  | nil => cases h
  | cons c rest ih =>
    rw [tokens] at h
    split at h
    · rename_i ht
      obtain ⟨hspan, hrest⟩ := List.cons.inj h
      obtain ⟨rfl, rfl⟩ := Prod.mk.inj hspan
      simp only [tokenAt, Bool.and_eq_true] at ht
      obtain ⟨v, hv⟩ := List.isPrefixOf_iff_prefix.mp ht.1.2
      have hdrop : (c :: rest).drop 5 = v := by
        rw [← hv]
        rfl
      refine ⟨[], v, hv.symm, rfl, rfl, rfl, ht.1.1, by rw [← hdrop]; exact ht.2, ?_⟩
      obtain ⟨rfl, rfl⟩ : c = 's' ∧ rest = 'o' :: 'r' :: 'r' :: 'y' :: v := by
        rw [hole] at hv
        exact ⟨(List.cons.inj hv).1.symm, (List.cons.inj hv).2.symm⟩
      simpa [tokens, tokenAt, hole] using hrest
    · rename_i ht
      obtain ⟨u, v, rfl, ha, hz, hu, hstarts, hends, hrest⟩ := ih h
      rw [← lastOr_cons previous] at hstarts
      have hno : tokenAt C previous (c :: u) = false := by
        rw [← tokenAt_append (by simp) (apart_of_starts hstarts (hole ++ v))]
        simpa using ht
      refine ⟨c :: u, v, by simp, ?_, hz, ?_, hstarts, hends, hrest⟩
      · rw [ha, List.length_cons]
        omega
      · rw [tokens, hno]
        exact hu

end LeanFlow.Source
