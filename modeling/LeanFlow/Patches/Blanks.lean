import LeanFlow.Patches.Fuzzy

/-! Where the matcher over blanks finds what it has found in the collapsed text.

A text splits where its collapsed text does (`exists_split`). The position map of the
parts is the map of the whole (`places_append`), and counting the positions below a value
gives the first and the last place of it (`mapped_span`): a span begins among the blanks
that stand before its text, and ends behind those that follow. -/
namespace LeanFlow.Patches
open General Source

/-! ### Collapsing -/

/-- A text, behind a blank or not, ends behind one. -/
def behind (before : Bool) (text : Text) : Bool := text.getLast?.elim before blank

/-- No run of blanks is cut between two texts. -/
def Uncut (before : Bool) (x y : Text) : Prop := behind before x = true → ∀ c, y.head? = some c → blank c = false

@[simp] theorem behind_nil (before : Bool) : behind before [] = before := rfl

@[simp] theorem behind_cons (before : Bool) (c : Char) (x : Text) : behind before (c :: x) = behind (blank c) x := by
  cases x <;> simp [behind, List.getLast?_cons]

theorem collapse_blank {c : Char} (hc : blank c = true) (before : Bool) (x : Text) :
    collapse before (c :: x) = if before then collapse true x else ' ' :: collapse true x := by
  rw [collapse, if_pos hc]

theorem collapse_other {c : Char} (hc : blank c = false) (before : Bool) (x : Text) :
    collapse before (c :: x) = c :: collapse false x := by
  rw [collapse, if_neg (by simp [hc])]

/-- The collapsed texts are joined where the second is behind the first. -/
theorem collapse_append (before : Bool) (x y : Text) : collapse before (x ++ y) = collapse before x ++ collapse (behind before x) y := by
  induction x generalizing before with
  | nil => rfl
  | cons c x ih =>
    rw [List.cons_append, behind_cons]
    cases hc : blank c with
    | true =>
      rw [collapse_blank hc, collapse_blank hc, ih]
      cases before <;> rfl
    | false => rw [collapse_other hc, collapse_other hc, ih, List.cons_append]

/-- Nothing is dropped from a text that begins with no blank. -/
theorem collapse_true {x : Text} (h : ∀ c, x.head? = some c → blank c = false) : collapse true x = collapse false x := by
  cases x with
  | nil => rfl
  | cons c x => rw [collapse_other (h c rfl), collapse_other (h c rfl)]

theorem Uncut.collapse {before : Bool} {x y : Text} (h : Uncut before x y) :
    collapse before (x ++ y) = collapse before x ++ normalize y := by
  rw [collapse_append, normalize]
  cases hbehind : behind before x with
  | true => rw [collapse_true (h hbehind)]
  | false => rfl

/-- Only blanks behind a blank disappear. -/
theorem collapse_eq_nil {before : Bool} {x : Text} : collapse before x = [] ↔ x = [] ∨ before = true ∧ x.all blank = true := by
  induction x generalizing before with
  | nil => simp [collapse]
  | cons c x ih =>
    cases hc : blank c with
    | false => simp [collapse_other hc, hc]
    | true =>
      rw [collapse_blank hc]
      cases before with
      | false => simp
      | true =>
        rw [if_pos rfl, ih, List.all_cons, hc, Bool.true_and]
        constructor
        · rintro (rfl | h)
          · exact Or.inr ⟨rfl, rfl⟩
          · exact Or.inr h
        · rintro (h | h)
          · cases h
          · exact Or.inr h

/-- Behind a blank the collapsed text begins with no blank. -/
theorem collapse_head {x normalized : Text} {m : Char} (h : collapse true x = m :: normalized) : blank m = false := by
  induction x with
  | nil => cases h
  | cons c x ih =>
    cases hc : blank c with
    | false =>
      rw [collapse_other hc] at h
      exact (List.cons.inj h).1 ▸ hc
    | true =>
      rw [collapse_blank hc] at h
      exact ih h

/-- Where the collapsed text is split, so is the text, and no run of blanks is cut. -/
theorem exists_split {before : Bool} {text u v : Text} (h : collapse before text = u ++ v) :
    ∃ x y, text = x ++ y ∧ collapse before x = u ∧ normalize y = v ∧ Uncut before x y := by
  induction text generalizing before u with
  | nil =>
    obtain ⟨rfl, rfl⟩ := List.append_eq_nil_iff.mp h.symm
    exact ⟨[], [], rfl, rfl, rfl, fun _ _ hnil => nomatch hnil⟩
  | cons c text ih =>
    cases hc : blank c with
    | false =>
      rw [collapse_other hc] at h
      cases u with
      | nil => exact ⟨[], c :: text, rfl, rfl, by rw [normalize, collapse_other hc, h]; rfl, fun _ d hd => Option.some.inj hd ▸ hc⟩
      | cons d u =>
        obtain ⟨rfl, hrest⟩ := List.cons.inj h
        obtain ⟨x, y, rfl, rfl, hy, hcut⟩ := ih hrest
        refine ⟨c :: x, y, rfl, collapse_other hc _ _, hy, ?_⟩
        unfold Uncut
        rwa [behind_cons, hc]
    | true =>
      rw [collapse_blank hc] at h
      cases before with
      | true =>
        obtain ⟨x, y, rfl, rfl, hy, hcut⟩ := ih h
        refine ⟨c :: x, y, rfl, by rw [collapse_blank hc]; rfl, hy, ?_⟩
        unfold Uncut
        rwa [behind_cons, hc]
      | false =>
        cases u with
        | nil =>
          refine ⟨[], c :: text, rfl, rfl, ?_, fun hfalse => nomatch hfalse⟩
          rw [normalize, collapse_blank hc, ← List.nil_append v, ← h]
        | cons d u =>
          obtain ⟨rfl, hrest⟩ := List.cons.inj h
          obtain ⟨x, y, rfl, rfl, hy, hcut⟩ := ih hrest
          refine ⟨c :: x, y, rfl, by rw [collapse_blank hc]; rfl, hy, ?_⟩
          unfold Uncut
          rwa [behind_cons, hc]

/-- There is one place to split at. -/
theorem split_unique {text x y x' y' : Text} (h : text = x ++ y) (h' : text = x' ++ y') (hcut : Uncut false x y) (hcut' : Uncut false x' y')
    (hlength : (normalize x).length = (normalize x').length) : x = x' := by
  have key : ∀ {x y x' y' : Text}, x ++ y = x' ++ y' → Uncut false x y → (normalize x).length = (normalize x').length →
      x.length ≤ x'.length → x = x' := by
    intro x y x' y' heq hcut hlength hle
    obtain ⟨d, rfl⟩ := List.prefix_of_prefix_length_le (List.prefix_append x y) (heq ▸ List.prefix_append x' y') hle
    have hempty : collapse (behind false x) d = [] := by
      rw [normalize, normalize, collapse_append, List.length_append] at hlength
      exact List.length_eq_zero_iff.mp (by omega)
    rcases collapse_eq_nil.mp hempty with rfl | ⟨hbehind, hblank⟩
    · exact (List.append_nil x).symm
    · rw [List.append_assoc] at heq
      have hy : y = d ++ y' := List.append_cancel_left heq
      cases d with
      | nil => exact (List.append_nil x).symm
      | cons c d =>
        have hc := hcut hbehind c (hy ▸ rfl)
        rw [List.all_cons, hc] at hblank
        cases hblank
  rcases Nat.le_total x.length x'.length with hle | hle
  · exact key (h.symm.trans h') hcut hlength hle
  · exact (key (h'.symm.trans h) hcut' hlength.symm hle).symm

/-! ### The position map -/

/-- The position map, by the run of blanks it stands in: behind its first space or not. -/
def places : Bool → Text → Nat → List Nat
  | _, [], _ => []
  | passed, c :: rest, n =>
    if blank c then
      if passed then n :: places true rest n
      else if c = ' ' then n :: places true rest (n + 1)
      else n :: places false rest (if rest.head?.any (!blank ·) then n + 1 else n)
    else n :: places false rest (n + 1)

/-- The two cursors of the position map walk as `places` does. -/
theorem orig_to_norm_eq (passed : Bool) (x : Text) (n : Nat) : orig_to_norm x (collapse passed x) n = places passed x n := by
  induction x generalizing passed n with
  | nil => simp [orig_to_norm, places]
  | cons c x ih =>
    cases hc : blank c with
    | false => rw [collapse_other hc, orig_to_norm, if_pos rfl, ih, places, if_neg (by simp [hc])]
    | true =>
      rw [places, if_pos hc, collapse_blank hc]
      cases passed with
      | true =>
        rw [if_pos rfl, if_pos rfl, ← ih true n]
        cases hcollapse : collapse true x with
        | nil => rw [orig_to_norm]
        | cons m normalized =>
          have hm := collapse_head hcollapse
          rw [orig_to_norm, if_neg, if_neg]
          · simp only [Bool.and_eq_true, decide_eq_true_eq, not_and]
            rintro - rfl
            cases hm
          · rintro rfl
            rw [hc] at hm
            cases hm
      | false =>
        simp only [Bool.false_eq_true, if_false]
        by_cases hspace : c = ' '
        · subst hspace
          rw [orig_to_norm, if_pos rfl, if_pos rfl, ih]
        · rw [orig_to_norm, if_neg hspace, if_pos (by simp [hc]), if_neg hspace]
          congr 1
          cases x with
          | nil => simp [orig_to_norm, places]
          | cons d x =>
            cases hd : blank d with
            | false =>
              have hhead : (d :: x).head?.any (!blank ·) = true := by simp [hd]
              rw [if_pos hhead, if_pos hhead, ← ih, collapse_other hd, collapse_other hd]
            | true =>
              have hhead : ¬(d :: x).head?.any (!blank ·) = true := by simp [hd]
              rw [if_neg hhead, if_neg hhead, ← ih, collapse_blank hd, collapse_blank hd]
              rfl

section Places

variable {c : Char} (x : Text) (n : Nat)

theorem places_other (hc : blank c = false) (passed : Bool) : places passed (c :: x) n = n :: places false x (n + 1) := by
  rw [places, if_neg (by simp [hc])]

theorem places_passed (hc : blank c = true) : places true (c :: x) n = n :: places true x n := by
  rw [places, if_pos hc, if_pos rfl]

theorem places_space : places false (' ' :: x) n = n :: places true x (n + 1) := rfl

theorem places_tab (hc : blank c = true) (hspace : c ≠ ' ') (d : Char) :
    places false (c :: d :: x) n = n :: places false (d :: x) (if blank d then n else n + 1) := by
  rw [places, if_pos hc, if_neg Bool.false_ne_true, if_neg hspace]
  cases hd : blank d <;> simp [hd]

theorem places_single (passed : Bool) : places passed [c] n = [n] := by
  unfold places
  split
  · split
    · rfl
    · split <;> rfl
  · rfl

end Places

theorem length_collapse_tab {c d : Char} (hc : blank c = true) (x : Text) (n : Nat) :
    n + (collapse false (c :: d :: x)).length = (if blank d then n else n + 1) + (collapse false (d :: x)).length := by
  cases hd : blank d with
  | false => simp [collapse_blank hc, collapse_other hd, Nat.add_assoc, Nat.add_comm]
  | true => simp [collapse_blank hc, collapse_blank hd]

/-- The positions of two texts, unless a run of blanks is cut between them. -/
theorem places_append {passed : Bool} {x y : Text} (h : Uncut passed x y) (n : Nat) :
    places passed (x ++ y) n = places passed x n ++ places false y (n + (collapse passed x).length) := by
  by_cases hy : y = []
  · rw [hy, List.append_nil, places, List.append_nil]
  induction x generalizing passed n with
  | nil =>
    cases y with
    | nil => exact absurd rfl hy
    | cons c y =>
      cases passed with
      | false => rfl
      | true =>
        have hc : blank c = false := h rfl c rfl
        rw [List.nil_append, places_other _ _ hc, collapse, places, List.nil_append, places_other _ _ hc]
        rfl
  | cons c x ih =>
    unfold Uncut at h
    rw [behind_cons] at h
    cases hc : blank c with
    | false =>
      rw [hc] at h
      rw [List.cons_append, places_other _ _ hc, places_other _ _ hc, collapse_other hc, ih h, List.length_cons, List.cons_append,
        Nat.add_assoc, Nat.add_comm 1]
    | true =>
      rw [hc] at h
      cases passed with
      | true =>
        rw [List.cons_append, places_passed _ _ hc, places_passed _ _ hc, collapse_blank hc, if_pos rfl, ih h, List.cons_append]
      | false =>
        by_cases hspace : c = ' '
        · subst hspace
          rw [List.cons_append, places_space, places_space, collapse_blank hc, if_neg Bool.false_ne_true, ih h, List.length_cons,
            List.cons_append, Nat.add_assoc, Nat.add_comm 1]
        · cases x with
          | nil =>
            cases y with
            | nil => exact absurd rfl hy
            | cons d y =>
              have hd : blank d = false := h rfl d rfl
              rw [List.singleton_append, places_tab _ _ hc hspace, if_neg (by simp [hd]), places_single, List.singleton_append,
                collapse_blank hc]
              rfl
          | cons d x =>
            have hcut : Uncut false (d :: x) y := by
              unfold Uncut
              rwa [behind_cons] at h ⊢
            rw [List.cons_append, List.cons_append, places_tab _ _ hc hspace, places_tab _ _ hc hspace, length_collapse_tab hc,
              ← List.cons_append, ih hcut, List.cons_append]

/-- The length of a text without the blanks at its end that follow a space of the same run. -/
def solid : Bool → Text → Nat
  | _, [] => 0
  | passed, c :: rest =>
    if blank c then
      if passed then if rest.all blank then 0 else solid true rest + 1
      else if c = ' ' then solid true rest + 1
      else solid false rest + 1
    else solid false rest + 1

/-- No position is before the first. -/
theorem le_places {passed : Bool} {x : Text} {n k : Nat} (h : k ∈ places passed x n) : n ≤ k := by
  induction x generalizing passed n with
  | nil => cases h
  | cons c x ih =>
    rw [places] at h
    split at h
    · split at h
      · exact (List.mem_cons.mp h).elim (fun heq => Nat.le_of_eq heq.symm) ih
      · split at h
        · exact (List.mem_cons.mp h).elim (fun heq => Nat.le_of_eq heq.symm) fun hmem => Nat.le_of_succ_le (ih hmem)
        · refine (List.mem_cons.mp h).elim (fun heq => Nat.le_of_eq heq.symm) fun hmem => ?_
          have hle := ih hmem
          split at hle <;> omega
    · exact (List.mem_cons.mp h).elim (fun heq => Nat.le_of_eq heq.symm) fun hmem => Nat.le_of_succ_le (ih hmem)

theorem solid_blank {x : Text} (h : x.all blank = true) : solid true x = 0 := by
  cases x with
  | nil => rfl
  | cons c x =>
    obtain ⟨hc, hx⟩ := Bool.and_eq_true_iff.mp h
    rw [solid, if_pos hc, if_pos rfl, if_pos hx]

/-- The positions below the one behind the text. -/
theorem countP_places (passed : Bool) (x : Text) (n : Nat) :
    (places passed x n).countP (· < n + (collapse passed x).length) = solid passed x := by
  induction x generalizing passed n with
  | nil => rfl
  | cons c x ih =>
    cases hc : blank c with
    | false =>
      rw [places_other _ _ hc, collapse_other hc, List.length_cons, solid, if_neg (by simp [hc]), List.countP_cons_of_pos (by simp),
        ← ih false (n + 1), Nat.add_assoc, Nat.add_comm 1]
    | true =>
      rw [solid, if_pos hc]
      cases passed with
      | true =>
        rw [places_passed _ _ hc, collapse_blank hc, if_pos rfl, if_pos rfl]
        cases hx : x.all blank with
        | true =>
          have hnil : collapse true x = [] := collapse_eq_nil.mpr (Or.inr ⟨rfl, hx⟩)
          have hcount := ih true n
          rw [solid_blank hx] at hcount
          rw [if_pos rfl, List.countP_cons_of_neg (by simp [hnil]), hcount]
        | false =>
          have hne : collapse true x ≠ [] := fun hnil => by
            rcases collapse_eq_nil.mp hnil with rfl | ⟨-, hall⟩
            · cases hx
            · rw [hx] at hall
              cases hall
          rw [if_neg Bool.false_ne_true, List.countP_cons_of_pos (by simpa using List.length_pos_iff.mpr hne), ih]
      | false =>
        rw [if_neg Bool.false_ne_true]
        by_cases hspace : c = ' '
        · subst hspace
          rw [places_space, collapse_blank hc, if_neg Bool.false_ne_true, List.length_cons, if_pos rfl,
            List.countP_cons_of_pos (by simp), ← ih true (n + 1), Nat.add_assoc, Nat.add_comm 1]
        · rw [if_neg hspace]
          cases x with
          | nil =>
            rw [places_single, collapse_blank hc]
            simp [collapse, solid]
          | cons d x =>
            have hpos : n < (if blank d then n else n + 1) + (collapse false (d :: x)).length := by
              rw [← length_collapse_tab hc, collapse_blank hc, if_neg Bool.false_ne_true, List.length_cons]
              omega
            rw [places_tab _ _ hc hspace, length_collapse_tab hc, List.countP_cons_of_pos (by simpa using hpos), ih]

/-- Nor behind the end of the collapsed text. -/
theorem places_le {passed : Bool} {x : Text} {n k : Nat} (h : k ∈ places passed x n) : k ≤ n + (collapse passed x).length := by
  induction x generalizing passed n with
  | nil => cases h
  | cons c x ih =>
    cases hc : blank c with
    | false =>
      rw [places_other _ _ hc] at h
      rw [collapse_other hc, List.length_cons]
      rcases List.mem_cons.mp h with rfl | hmem
      · omega
      · have := ih hmem
        omega
    | true =>
      cases passed with
      | true =>
        rw [places_passed _ _ hc] at h
        rw [collapse_blank hc, if_pos rfl]
        rcases List.mem_cons.mp h with rfl | hmem
        · omega
        · exact ih hmem
      | false =>
        by_cases hspace : c = ' '
        · subst hspace
          rw [places_space] at h
          rw [collapse_blank hc, if_neg Bool.false_ne_true, List.length_cons]
          rcases List.mem_cons.mp h with rfl | hmem
          · omega
          · have := ih hmem
            omega
        · cases x with
          | nil =>
            rw [places_single] at h
            rw [List.mem_singleton.mp h]
            omega
          | cons d x =>
            rw [places_tab _ _ hc hspace] at h
            rw [length_collapse_tab hc]
            rcases List.mem_cons.mp h with rfl | hmem
            · split <;> omega
            · exact ih hmem

/-- Every position is taken. -/
theorem mem_places {passed : Bool} {x : Text} {n k : Nat} (hle : n ≤ k) (hlt : k < n + (collapse passed x).length) :
    k ∈ places passed x n := by
  induction x generalizing passed n with
  | nil => exact absurd hlt (Nat.not_lt.mpr hle)
  | cons c x ih =>
    cases hc : blank c with
    | false =>
      rw [collapse_other hc, List.length_cons] at hlt
      rw [places_other _ _ hc]
      rcases Nat.eq_or_lt_of_le hle with rfl | hgt
      · exact List.mem_cons_self ..
      · exact List.mem_cons_of_mem _ (ih hgt (by omega))
    | true =>
      cases passed with
      | true =>
        rw [collapse_blank hc, if_pos rfl] at hlt
        rw [places_passed _ _ hc]
        exact List.mem_cons_of_mem _ (ih hle hlt)
      | false =>
        by_cases hspace : c = ' '
        · subst hspace
          rw [collapse_blank hc, if_neg Bool.false_ne_true, List.length_cons] at hlt
          rw [places_space]
          rcases Nat.eq_or_lt_of_le hle with rfl | hgt
          · exact List.mem_cons_self ..
          · exact List.mem_cons_of_mem _ (ih hgt (by omega))
        · cases x with
          | nil =>
            rw [collapse_blank hc] at hlt
            have hk : k = n := by
              simp [collapse] at hlt
              omega
            rw [places_single, hk]
            exact List.mem_singleton_self n
          | cons d x =>
            rw [length_collapse_tab hc] at hlt
            rw [places_tab _ _ hc hspace]
            rcases Nat.eq_or_lt_of_le hle with rfl | hgt
            · exact List.mem_cons_self ..
            · exact List.mem_cons_of_mem _ (ih (by split <;> omega) hlt)

/-- The position map never goes back. -/
theorem places_sorted (passed : Bool) (x : Text) (n : Nat) : (places passed x n).Pairwise (· ≤ ·) := by
  induction x generalizing passed n with
  | nil => exact List.Pairwise.nil
  | cons c x ih =>
    rw [places]
    split
    · split
      · exact List.Pairwise.cons (fun k hk => le_places hk) (ih true n)
      · split
        · exact List.Pairwise.cons (fun k hk => Nat.le_of_succ_le (le_places hk)) (ih true (n + 1))
        · refine List.Pairwise.cons (fun k hk => ?_) (ih false _)
          have hle := le_places hk
          split at hle <;> omega
    · exact List.Pairwise.cons (fun k hk => Nat.le_of_succ_le (le_places hk)) (ih false (n + 1))

/-! ### Spans -/

/-- In a sorted map the first index of a position is the number of those below it. -/
theorem first_at_sorted {positions : List Nat} {v : Nat} (h : positions.Pairwise (· ≤ ·)) (hv : v ∈ positions) :
    first_at positions v = some (positions.countP (· < v)) := by
  induction positions with
  | nil => cases hv
  | cons a positions ih =>
    obtain ⟨ha, hrest⟩ := List.pairwise_cons.mp h
    unfold first_at at ih ⊢
    rw [List.findIdx?_cons]
    by_cases hav : a = v
    · subst hav
      have hzero : positions.countP (· < a) = 0 :=
        List.countP_eq_zero.mpr fun b hb => by simpa using ha b hb
      rw [if_pos (by simp), List.countP_cons_of_neg (by simp), hzero]
    · have hmem : v ∈ positions := (List.mem_cons.mp hv).resolve_left fun heq => hav heq.symm
      have hlt : a < v := Nat.lt_of_le_of_ne (ha v hmem) hav
      rw [if_neg (by simpa using hav), ih hrest hmem, List.countP_cons_of_pos (by simpa using hlt)]
      rfl

/-- The last one is behind all that are not above it. -/
theorem last_at_sorted {positions : List Nat} {v : Nat} (h : positions.Pairwise (· ≤ ·)) (hv : v ∈ positions) :
    (last_at positions v).map (· + 1) = some (positions.countP (· < v + 1)) := by
  have key : ∀ {l : List Nat}, l.Pairwise (· ≥ ·) → v ∈ l → l.findIdx? (· = v) = some (l.countP (v < ·)) := by
    intro l hl hmem
    induction l with
    | nil => cases hmem
    | cons a l ih =>
      obtain ⟨ha, hrest⟩ := List.pairwise_cons.mp hl
      rw [List.findIdx?_cons]
      by_cases hav : a = v
      · subst hav
        have hzero : l.countP (a < ·) = 0 := List.countP_eq_zero.mpr fun b hb => by simpa using ha b hb
        rw [if_pos (by simp), List.countP_cons_of_neg (by simp), hzero]
      · have hin : v ∈ l := (List.mem_cons.mp hmem).resolve_left fun heq => hav heq.symm
        have hlt : v < a := Nat.lt_of_le_of_ne (ha v hin) fun heq => hav heq.symm
        rw [if_neg (by simpa using hav), ih hrest hin, List.countP_cons_of_pos (by simpa using hlt)]
        rfl
  have hreverse := key (List.pairwise_reverse.mpr h) (List.mem_reverse.mpr hv)
  unfold last_at
  rw [hreverse, List.countP_reverse, Option.map_some, Option.map_some]
  have htotal : positions.length = positions.countP (· < v + 1) + positions.countP (v < ·) := by
    rw [List.length_eq_countP_add_countP (· < v + 1)]
    exact congrArg _ (List.countP_congr fun a _ => by simp [Nat.lt_succ_iff])
  have hpos : 0 < positions.countP (· < v + 1) := List.countP_pos_iff.mpr ⟨v, hv, by simp⟩
  exact congrArg some (by omega)

/-- Every character has a position. -/
theorem length_places (passed : Bool) (x : Text) (n : Nat) : (places passed x n).length = x.length := by
  induction x generalizing passed n with
  | nil => rfl
  | cons c x ih =>
    rw [places]
    split
    · split
      · rw [List.length_cons, ih, List.length_cons]
      · split <;> rw [List.length_cons, ih, List.length_cons]
    · rw [List.length_cons, ih, List.length_cons]

theorem solid_le (passed : Bool) (x : Text) : solid passed x ≤ x.length := by
  rw [← countP_places passed x 0, ← length_places passed x 0]
  exact List.countP_le_length

/-- What is not counted are blanks. -/
theorem blank_behind_solid (passed : Bool) (x : Text) : (x.drop (solid passed x)).all blank = true := by
  induction x generalizing passed with
  | nil => rfl
  | cons c x ih =>
    rw [solid]
    split
    · rename_i hc
      split
      · split
        · rename_i hx
          rw [List.drop_zero, List.all_cons, hc, hx]
          rfl
        · exact ih true
      · split
        · exact ih true
        · exact ih false
    · exact ih false

section Split

variable {x t z : Text}

theorem Uncut.append {before : Bool} (h : Uncut before x t) (ht : t ≠ []) : Uncut before x (t ++ z) := by
  cases t with
  | nil => exact absurd rfl ht
  | cons c t => exact h

/-- A text that is split at no run of blanks is normalized part by part. -/
theorem normalize_split (ht : t ≠ []) (hx : Uncut false x t) (hz : Uncut false t z) :
    normalize (x ++ (t ++ z)) = normalize x ++ (normalize t ++ normalize z) := by
  rw [normalize, (hx.append ht).collapse, normalize, hz.collapse]
  rfl

/-- So is its position map. -/
theorem positions_split (ht : t ≠ []) (hx : Uncut false x t) (hz : Uncut false t z) :
    orig_to_norm (x ++ (t ++ z)) (normalize (x ++ (t ++ z))) 0 =
      places false x 0 ++ (places false t (normalize x).length ++ places false z ((normalize x).length + (normalize t).length)) := by
  rw [normalize, orig_to_norm_eq, places_append (hx.append ht), places_append hz, Nat.zero_add]
  rfl

theorem normalize_pos (ht : t ≠ []) : 0 < (normalize t).length := by
  refine List.length_pos_iff.mpr fun hnil => ?_
  rcases collapse_eq_nil.mp hnil with rfl | ⟨hfalse, -⟩
  · exact ht rfl
  · cases hfalse

/-- The positions below the start of the second of three parts. -/
theorem countP_start (ht : t ≠ []) (hx : Uncut false x t) (hz : Uncut false t z) :
    (orig_to_norm (x ++ (t ++ z)) (normalize (x ++ (t ++ z))) 0).countP (· < (normalize x).length) = solid false x := by
  have hxs : (places false x 0).countP (· < (normalize x).length) = solid false x := by
    have hcount := countP_places false x 0
    rwa [Nat.zero_add] at hcount
  have hts : (places false t (normalize x).length).countP (· < (normalize x).length) = 0 :=
    List.countP_eq_zero.mpr fun k hk => by simpa using le_places hk
  have hzs : (places false z ((normalize x).length + (normalize t).length)).countP (· < (normalize x).length) = 0 :=
    List.countP_eq_zero.mpr fun k hk => by simpa using Nat.le_of_add_right_le (le_places hk)
  rw [positions_split ht hx hz, List.countP_append, List.countP_append, hxs, hts, hzs, Nat.add_zero]

/-- The positions below its end. -/
theorem countP_stop (ht : t ≠ []) (hx : Uncut false x t) (hz : Uncut false t z) :
    (orig_to_norm (x ++ (t ++ z)) (normalize (x ++ (t ++ z))) 0).countP (· < (normalize x).length + (normalize t).length) =
      x.length + solid false t := by
  have hxs : (places false x 0).countP (· < (normalize x).length + (normalize t).length) = x.length := by
    rw [← length_places false x 0]
    refine List.countP_eq_length.mpr fun k hk => ?_
    have hle := places_le hk
    have hpos := normalize_pos ht
    rw [Nat.zero_add] at hle
    exact decide_eq_true (Nat.lt_of_le_of_lt hle (Nat.lt_add_of_pos_right hpos))
  have hzs : (places false z ((normalize x).length + (normalize t).length)).countP (· < (normalize x).length + (normalize t).length) = 0 :=
    List.countP_eq_zero.mpr fun k hk => by simpa using le_places hk
  have hts : (places false t (normalize x).length).countP (· < (normalize x).length + (normalize t).length) = solid false t :=
    countP_places false t _
  rw [positions_split ht hx hz, List.countP_append, List.countP_append, hxs, hts, hzs, Nat.add_zero]

/-- Every position of the second part is taken. -/
theorem mem_positions {k : Nat} (ht : t ≠ []) (hx : Uncut false x t) (hz : Uncut false t z) (hle : (normalize x).length ≤ k)
    (hlt : k < (normalize x).length + (normalize t).length) :
    k ∈ orig_to_norm (x ++ (t ++ z)) (normalize (x ++ (t ++ z))) 0 := by
  rw [positions_split ht hx hz]
  exact List.mem_append_right _ (List.mem_append_left _ (mem_places hle hlt))

theorem takeWhile_blank {a b : Text} (ha : a.all blank = true) : (a ++ b).takeWhile blank = a ++ b.takeWhile blank :=
  List.takeWhile_append_of_pos (List.all_eq_true.mp ha)

/-- A span begins among the blanks before its text and ends behind those that follow. -/
theorem mapped_span (ht : t ≠ []) (hx : Uncut false x t) (hz : Uncut false t z) :
    map_normalized_position (x ++ (t ++ z)) (orig_to_norm (x ++ (t ++ z)) (normalize (x ++ (t ++ z))) 0)
        ((normalize x).length, (normalize x).length + (normalize t).length) =
      (solid false x, x.length + t.length + (z.takeWhile blank).length) := by
  have hpos := normalize_pos ht
  have hsorted : (orig_to_norm (x ++ (t ++ z)) (normalize (x ++ (t ++ z))) 0).Pairwise (· ≤ ·) := by
    rw [normalize, orig_to_norm_eq]
    exact places_sorted _ _ _
  have hfirst := first_at_sorted hsorted (mem_positions ht hx hz (Nat.le_refl _) (Nat.lt_add_of_pos_right hpos))
  have hlast := last_at_sorted hsorted (mem_positions ht hx hz (k := (normalize x).length + (normalize t).length - 1)
    (by omega) (by omega))
  rw [Nat.sub_add_cancel (by omega), countP_stop ht hx hz] at hlast
  rw [countP_start ht hx hz] at hfirst
  have hexpand : expand_blanks (x ++ (t ++ z)) (x.length + solid false t) = x.length + t.length + (z.takeWhile blank).length := by
    have hdrop : (x ++ (t ++ z)).drop (x.length + solid false t) = t.drop (solid false t) ++ z := by
      rw [← List.drop_drop, List.drop_left, List.drop_append_of_le_length (solid_le false t)]
    have hle := solid_le false t
    rw [expand_blanks, hdrop, takeWhile_blank (blank_behind_solid false t), List.length_append, List.length_drop]
    omega
  have hlength : x.length + t.length + (z.takeWhile blank).length ≤ (x ++ (t ++ z)).length := by
    have hle := (List.takeWhile_prefix (p := blank) (l := z)).length_le
    rw [List.length_append, List.length_append]
    omega
  simp only [map_normalized_position, hfirst, hlast, Option.getD_some, hexpand, Nat.min_eq_left hlength]

end Split

end LeanFlow.Patches
