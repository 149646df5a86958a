import Mathlib.Logic.Basic

/-! Computations that succeed: what the parts of one returned. -/
namespace LeanFlow.General

variable {ε α β : Type}

/-- A sequence succeeds just when both parts do. -/
theorem bind_eq_ok {x : Except ε α} {f : α → Except ε β} {b : β} :
    (x >>= f) = .ok b ↔ ∃ a, x = .ok a ∧ f a = .ok b := by
  cases x with
  | error e =>
    constructor
    · rintro ⟨⟩
    · rintro ⟨a, ⟨⟩, _⟩
  | ok a =>
    constructor
    · exact fun h => ⟨a, rfl, h⟩
    · rintro ⟨_, ⟨⟩, h⟩
      exact h

/-- A sequence fails where one of its parts does. -/
theorem bind_eq_error {x : Except ε α} {f : α → Except ε β} {e : ε} (h : (x >>= f) = .error e) :
    x = .error e ∨ ∃ a, x = .ok a ∧ f a = .error e := by
  cases x with
  | error e' => exact Or.inl (congrArg Except.error (Except.error.inj h))
  | ok a => exact Or.inr ⟨a, rfl, h⟩

/-- A loop succeeds just when every turn of it does. -/
theorem forM_eq_ok {l : List α} {f : α → Except ε Unit} :
    l.forM f = .ok () ↔ ∀ a ∈ l, f a = .ok () := by
  induction l with
  | nil => exact ⟨fun _ _ => (List.not_mem_nil · |>.elim), fun _ => rfl⟩
  | cons a l ih =>
    show (f a >>= fun _ => l.forM f) = .ok () ↔ _
    rw [bind_eq_ok, List.forall_mem_cons, ← ih]
    exact ⟨fun ⟨_, ha, hl⟩ => ⟨ha, hl⟩, fun ⟨ha, hl⟩ => ⟨(), ha, hl⟩⟩

/-- A loop fails where one of its turns does. -/
theorem forM_eq_error {l : List α} {f : α → Except ε Unit} {e : ε} (h : l.forM f = .error e) :
    ∃ a ∈ l, f a = .error e := by
  induction l with
  | nil => cases h
  | cons a l ih =>
    rcases bind_eq_error (show (f a >>= fun _ => l.forM f) = .error e from h) with ha | ⟨_, -, hl⟩
    · exact ⟨a, List.mem_cons_self .., ha⟩
    · obtain ⟨b, hb, herror⟩ := ih hl
      exact ⟨b, List.mem_cons_of_mem _ hb, herror⟩

/-- A fold fails where one of its turns does. -/
theorem foldlM_eq_error {l : List α} {f : β → α → Except ε β} {b : β} {e : ε} (h : l.foldlM f b = .error e) :
    ∃ a ∈ l, ∃ b, f b a = .error e := by
  induction l generalizing b with
  | nil => cases h
  | cons a l ih =>
    rw [List.foldlM_cons] at h
    rcases bind_eq_error h with ha | ⟨b', -, hl⟩
    · exact ⟨a, List.mem_cons_self .., b, ha⟩
    · obtain ⟨a', ha', herror⟩ := ih hl
      exact ⟨a', List.mem_cons_of_mem _ ha', herror⟩

/-- What each turn of a fold keeps, the fold keeps. -/
theorem foldlM_preserves {P : β → Prop} {f : β → α → Except ε β} {l : List α}
    (hf : ∀ a ∈ l, ∀ b b', P b → f b a = .ok b' → P b') {b r : β} (hb : P b) (h : l.foldlM f b = .ok r) : P r := by
  induction l generalizing b with
  | nil =>
    obtain rfl := Except.ok.inj h
    exact hb
  | cons a l ih =>
    rw [List.foldlM_cons] at h
    obtain ⟨b', hb', h⟩ := bind_eq_ok.mp h
    exact ih (fun c hc => hf c (List.mem_cons_of_mem _ hc)) (hf a (List.mem_cons_self ..) b b' hb hb') h

/-- A fold succeeds only when each of its turns does. -/
theorem foldlM_eq_ok {f : β → α → Except ε β} {l : List α} {b r : β} (h : l.foldlM f b = .ok r) {a : α} (ha : a ∈ l) :
    ∃ c c', f c a = .ok c' := by
  induction l generalizing b with
  | nil => cases ha
  | cons a' l ih =>
    rw [List.foldlM_cons] at h
    obtain ⟨b', hb', h⟩ := bind_eq_ok.mp h
    rcases List.mem_cons.mp ha with rfl | ha
    · exact ⟨b, b', hb'⟩
    · exact ih h ha

/-- A fold succeeds when each of its turns does, whatever it is given. -/
theorem foldlM_ok {f : β → α → Except ε β} {l : List α} (h : ∀ a ∈ l, ∀ b, ∃ b', f b a = .ok b') (b : β) :
    ∃ r, l.foldlM f b = .ok r := by
  induction l generalizing b with
  | nil => exact ⟨b, rfl⟩
  | cons a l ih =>
    obtain ⟨b', hb'⟩ := h a (List.mem_cons_self ..) b
    obtain ⟨r, hr⟩ := ih (fun c hc => h c (List.mem_cons_of_mem _ hc)) b'
    exact ⟨r, by rw [List.foldlM_cons, hb']; exact hr⟩

/-- A map that succeeds has a value for each item. -/
theorem mapM_eq_ok {l : List α} {f : α → Except ε β} {r : List β} (h : l.mapM f = .ok r) {a : α} (ha : a ∈ l) :
    ∃ b ∈ r, f a = .ok b := by
  induction l generalizing r with
  | nil => cases ha
  | cons a' l ih =>
    rw [List.mapM_cons] at h
    obtain ⟨b, hb, h⟩ := bind_eq_ok.mp h
    obtain ⟨r', hr', h⟩ := bind_eq_ok.mp h
    obtain rfl := Except.ok.inj h
    rcases List.mem_cons.mp ha with rfl | ha
    · exact ⟨b, List.mem_cons_self .., hb⟩
    · obtain ⟨b', hb', hf⟩ := ih hr' ha
      exact ⟨b', List.mem_cons_of_mem _ hb', hf⟩

/-- A map succeeds when each of its turns does. -/
theorem mapM_ok {l : List α} {f : α → Except ε β} (h : ∀ a ∈ l, ∃ b, f a = .ok b) : ∃ r, l.mapM f = .ok r := by
  induction l with
  | nil => exact ⟨[], rfl⟩
  | cons a l ih =>
    obtain ⟨b, hb⟩ := h a (List.mem_cons_self ..)
    obtain ⟨r, hr⟩ := ih fun c hc => h c (List.mem_cons_of_mem _ hc)
    exact ⟨b :: r, by rw [List.mapM_cons, hb, hr]; rfl⟩

/-- A map whose turns are known. -/
theorem mapM_eq_map {l : List α} {f : α → Except ε β} {g : α → β} (h : ∀ a ∈ l, f a = .ok (g a)) : l.mapM f = .ok (l.map g) := by
  induction l with
  | nil => rfl
  | cons a l ih =>
    obtain ⟨ha, hl⟩ := List.forall_mem_cons.mp h
    rw [List.mapM_cons, ha, ih hl]
    rfl

/-- Each value of a map is one of its turns'. -/
theorem mapM_mem {l : List α} {f : α → Except ε β} {r : List β} (h : l.mapM f = .ok r) {b : β} (hb : b ∈ r) :
    ∃ a ∈ l, f a = .ok b := by
  induction l generalizing r with
  | nil =>
    obtain rfl := Except.ok.inj h
    cases hb
  | cons a l ih =>
    rw [List.mapM_cons] at h
    obtain ⟨b', hb', h⟩ := bind_eq_ok.mp h
    obtain ⟨r', hr', h⟩ := bind_eq_ok.mp h
    obtain rfl := Except.ok.inj h
    rcases List.mem_cons.mp hb with rfl | hb
    · exact ⟨a, List.mem_cons_self .., hb'⟩
    · obtain ⟨a', ha', hf⟩ := ih hr' hb
      exact ⟨a', List.mem_cons_of_mem _ ha', hf⟩

/-- A search that finds nothing looked at every item. -/
theorem anyM_eq_false {l : List α} {f : α → Except ε Bool} (h : l.anyM f = .ok false) {a : α} (ha : a ∈ l) :
    f a = .ok false := by
  induction l with
  | nil => cases ha
  | cons a' l ih =>
    rw [List.anyM] at h
    obtain ⟨found, hfound, h⟩ := bind_eq_ok.mp h
    cases found with
    | true => cases h
    | false =>
      rcases List.mem_cons.mp ha with rfl | ha
      · exact hfound
      · exact ih h ha

/-- A map fails where one of its turns does. -/
theorem mapM_eq_error {l : List α} {f : α → Except ε β} {e : ε} (h : l.mapM f = .error e) :
    ∃ a ∈ l, f a = .error e := by
  induction l with
  | nil => cases h
  | cons a l ih =>
    rw [List.mapM_cons] at h
    rcases bind_eq_error h with ha | ⟨_, -, hl⟩
    · exact ⟨a, List.mem_cons_self .., ha⟩
    · rcases bind_eq_error hl with hl | ⟨_, -, hl⟩
      · obtain ⟨a', ha', herror⟩ := ih hl
        exact ⟨a', List.mem_cons_of_mem _ ha', herror⟩
      · cases hl

end LeanFlow.General
