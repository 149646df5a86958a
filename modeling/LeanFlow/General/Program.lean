import Mathlib.Logic.Basic

/-! Programs that share their state, may fail and may be cut off.

A program is a tree of atomic actions. Between two of them other parties may act
on the state (`Move.other`), a `pick` leaves a choice to the environment (does
this call fail?), and a run that stops anywhere is a crash at that point.

`Spec R I x Q E s` says of a program `x` at a state `s`, when other parties change
the state along `R`: every state the run passes through satisfies `I`, a value is
returned in a state satisfying `Q`, an exception leaves in one satisfying `E`.
`Spec.drive` is its soundness: it holds at every point of every run. -/
namespace LeanFlow.General

inductive Prog (σ ε α : Type) where
  | ret (a : α)
  | raise (e : ε)
  | act (update : σ → σ) (next : σ → Prog σ ε α)
  | pick (next : Bool → Prog σ ε α)

namespace Prog

variable {σ ε α β κ : Type}

def bind (f : α → Prog σ ε β) : Prog σ ε α → Prog σ ε β
  | ret a => f a
  | raise e => raise e
  | act update next => act update fun s => bind f (next s)
  | pick next => pick fun b => bind f (next b)

instance : Monad (Prog σ ε) where
  pure := ret
  bind x f := bind f x

theorem bind_ret (x : Prog σ ε α) : bind ret x = x := by
  induction x with
  | ret a => rfl
  | raise e => rfl
  | act update next ih => exact congrArg (act update) (funext ih)
  | pick next ih => exact congrArg pick (funext ih)

theorem bind_bind (x : Prog σ ε α) (f : α → Prog σ ε β) (g : β → Prog σ ε κ) :
    bind g (bind f x) = bind (fun a => bind g (f a)) x := by
  induction x with
  | ret a => rfl
  | raise e => rfl
  | act update next ih => exact congrArg (act update) (funext ih)
  | pick next ih => exact congrArg pick (funext ih)

instance : LawfulMonad (Prog σ ε) :=
  LawfulMonad.mk' _ bind_ret (fun _ _ => rfl) fun x f g => bind_bind x f g

/-- `try x except e: handle e`. -/
def handle (h : ε → Prog σ ε α) : Prog σ ε α → Prog σ ε α
  | ret a => ret a
  | raise e => h e
  | act update next => act update fun s => handle h (next s)
  | pick next => pick fun b => handle h (next b)

def get : Prog σ ε σ := act id ret

def modify (f : σ → σ) : Prog σ ε Unit := act f fun _ => ret ()

/-- A call that may raise, without an effect of its own. -/
def fault (e : ε) : Prog σ ε Unit := pick fun b => if b then raise e else ret ()

/-! ### Runs -/

/-- What happens next: the program acts, the environment answers a choice, another party acts. -/
inductive Move (κ : Type) where
  | act
  | pick (answer : Bool)
  | other (k : κ)

/-- One move of a program and the parties around it. -/
def step (other : κ → σ → Option σ) : Move κ → Prog σ ε α × σ → Option (Prog σ ε α × σ)
  | .act, (act update next, s) => some (next s, update s)
  | .pick answer, (pick next, s) => some (next answer, s)
  | .other k, (x, s) => (other k s).map fun s' => (x, s')
  | _, _ => none

/-- The moves of a run, one after the other. -/
def drive (other : κ → σ → Option σ) : List (Move κ) → Prog σ ε α × σ → Option (Prog σ ε α × σ)
  | [], c => some c
  | m :: moves, c => (step other m c).bind (drive other moves)

/-- The run in which no call fails and nobody else acts. -/
def calm : Prog σ ε α → σ → Except ε α × σ
  | ret a, s => (.ok a, s)
  | raise e, s => (.error e, s)
  | act update next, s => calm (next s) (update s)
  | pick next, s => calm (next false) s

/-- How a run to the end came out: the program's result, and the state it left. -/
def outcome (other : κ → σ → Option σ) (moves : List (Move κ)) (x : Prog σ ε α) (s : σ) :
    Option (Except ε α × σ) :=
  (drive other moves (x, s)).bind fun c =>
    match c.1 with
    | ret a => some (.ok a, c.2)
    | raise e => some (.error e, c.2)
    | _ => none

/-- A computed result, as a program that touches nothing. -/
def ofExcept : Except ε α → Prog σ ε α
  | .ok a => ret a
  | .error e => raise e

/-- One action, which may fail. -/
def atomically (f : σ → Except ε α × σ) : Prog σ ε α := act (fun s => (f s).2) fun s => ofExcept (f s).1

/-- The other parties, held to act only under a condition. -/
def restrict (ok : κ → σ → Prop) [∀ k s, Decidable (ok k s)] (other : κ → σ → Option σ) (k : κ) (s : σ) :
    Option σ := if ok k s then other k s else none

/-! ### Calm runs -/

@[simp] theorem calm_pure (a : α) (s : σ) : calm (pure a : Prog σ ε α) s = (.ok a, s) := rfl

@[simp] theorem calm_raise (e : ε) (s : σ) : calm (raise e : Prog σ ε α) s = (.error e, s) := rfl

@[simp] theorem calm_get (s : σ) : calm (get : Prog σ ε σ) s = (.ok s, s) := rfl

@[simp] theorem calm_modify (f : σ → σ) (s : σ) : calm (modify f : Prog σ ε Unit) s = (.ok (), f s) := rfl

@[simp] theorem calm_fault (e : ε) (s : σ) : calm (fault e : Prog σ ε Unit) s = (.ok (), s) := rfl

@[simp] theorem calm_ofExcept (r : Except ε α) (s : σ) : calm (ofExcept r) s = (r, s) := by
  cases r <;> rfl

@[simp] theorem calm_atomically (f : σ → Except ε α × σ) (s : σ) : calm (atomically f) s = f s :=
  calm_ofExcept (f s).1 (f s).2

@[simp] theorem calm_bind (x : Prog σ ε α) (f : α → Prog σ ε β) (s : σ) :
    calm (x >>= f) s = match calm x s with
      | (.ok a, s') => calm (f a) s'
      | (.error e, s') => (.error e, s') := by
  show calm (Prog.bind f x) s = _
  induction x generalizing s with
  | ret a => rfl
  | raise e => rfl
  | act update next ih => exact ih s (update s)
  | pick next ih => exact ih false s

@[simp] theorem calm_handle (x : Prog σ ε α) (h : ε → Prog σ ε α) (s : σ) :
    calm (handle h x) s = match calm x s with
      | (.ok a, s') => (.ok a, s')
      | (.error e, s') => calm (h e) s' := by
  induction x generalizing s with
  | ret a => rfl
  | raise e => rfl
  | act update next ih => exact ih s (update s)
  | pick next ih => exact ih false s

/-- The calm run is a run. -/
theorem exists_calm (other : κ → σ → Option σ) (x : Prog σ ε α) (s : σ) : ∃ moves,
    drive other moves (x, s) =
      some (match (calm x s).1 with
        | .ok a => ret a
        | .error e => raise e, (calm x s).2) := by
  induction x generalizing s with
  | ret a => exact ⟨[], rfl⟩
  | raise e => exact ⟨[], rfl⟩
  | act update next ih =>
    obtain ⟨moves, hrun⟩ := ih s (update s)
    exact ⟨.act :: moves, hrun⟩
  | pick next ih =>
    obtain ⟨moves, hrun⟩ := ih false s
    exact ⟨.pick false :: moves, hrun⟩

/-- Where the calm run of a part returns, some run of the whole is at the rest. -/
theorem exists_calm_bind (other : κ → σ → Option σ) {x : Prog σ ε α} {s s' : σ} {a : α} (h : calm x s = (.ok a, s'))
    (f : α → Prog σ ε β) : ∃ moves, drive other moves (x >>= f, s) = some (f a, s') := by
  show ∃ moves, drive other moves (Prog.bind f x, s) = some (f a, s')
  induction x generalizing s with
  | ret b =>
    cases h
    exact ⟨[], rfl⟩
  | raise e => cases h
  | act update next ih =>
    obtain ⟨moves, hrun⟩ := ih s h
    exact ⟨.act :: moves, hrun⟩
  | pick next ih =>
    obtain ⟨moves, hrun⟩ := ih false h
    exact ⟨.pick false :: moves, hrun⟩

/-! ### Specifications -/

/-- The program's guarantee under interference `R`, see above. -/
def Spec (R : σ → σ → Prop) (I : σ → Prop) (Q : α → σ → Prop) (E : ε → σ → Prop) :
    Prog σ ε α → σ → Prop
  | ret a, s => ∀ s', R s s' → I s' ∧ Q a s'
  | raise e, s => ∀ s', R s s' → I s' ∧ E e s'
  | act update next, s => ∀ s', R s s' → I s' ∧ Spec R I Q E (next s') (update s')
  | pick next, s => ∀ s', R s s' → I s' ∧ ∀ b, Spec R I Q E (next b) s'

variable {R : σ → σ → Prop} {I : σ → Prop} {Q Q' : α → σ → Prop} {E E' : ε → σ → Prop}

theorem Spec.inv (hR : ∀ s, R s s) {x : Prog σ ε α} {s : σ} (h : Spec R I Q E x s) : I s := by
  cases x <;> exact (h s (hR s)).1

/-- Other parties cannot break a guarantee. -/
theorem Spec.stable (hR : ∀ s s' s'', R s s' → R s' s'' → R s s'') {x : Prog σ ε α} {s s' : σ}
    (h : Spec R I Q E x s) (hs : R s s') : Spec R I Q E x s' := by
  cases x <;> exact fun s'' hs' => h s'' (hR s s' s'' hs hs')

theorem Spec.mono {x : Prog σ ε α} {s : σ} (h : Spec R I Q E x s) (hQ : ∀ a s, Q a s → Q' a s)
    (hE : ∀ e s, E e s → E' e s) : Spec R I Q' E' x s := by
  induction x generalizing s with
  | ret a => exact fun s' hs => ⟨(h s' hs).1, hQ a s' (h s' hs).2⟩
  | raise e => exact fun s' hs => ⟨(h s' hs).1, hE e s' (h s' hs).2⟩
  | act update next ih => exact fun s' hs => ⟨(h s' hs).1, ih s' (h s' hs).2⟩
  | pick next ih => exact fun s' hs => ⟨(h s' hs).1, fun b => ih b ((h s' hs).2 b)⟩

/-- What holds at every step, whatever is returned. -/
theorem Spec.any {x : Prog σ ε α} {s : σ} (h : Spec R I Q E x s) : Spec R I (fun _ _ => True) (fun _ _ => True) x s :=
  h.mono (fun _ _ _ => trivial) fun _ _ _ => trivial

theorem Spec.weaken {I' : σ → Prop} {x : Prog σ ε α} {s : σ} (h : Spec R I Q E x s) (hI : ∀ s, I s → I' s) :
    Spec R I' Q E x s := by
  induction x generalizing s with
  | ret a => exact fun s' hs => ⟨hI s' (h s' hs).1, (h s' hs).2⟩
  | raise e => exact fun s' hs => ⟨hI s' (h s' hs).1, (h s' hs).2⟩
  | act update next ih => exact fun s' hs => ⟨hI s' (h s' hs).1, ih s' (h s' hs).2⟩
  | pick next ih => exact fun s' hs => ⟨hI s' (h s' hs).1, fun b => ih b ((h s' hs).2 b)⟩

/-- Two guarantees of one program. -/
theorem Spec.and {I' : σ → Prop} {x : Prog σ ε α} {s : σ} (h : Spec R I Q E x s) (h' : Spec R I' Q' E' x s) :
    Spec R I (fun a s => Q a s ∧ Q' a s) (fun e s => E e s ∧ E' e s) x s := by
  induction x generalizing s with
  | ret a => exact fun s' hs => ⟨(h s' hs).1, (h s' hs).2, (h' s' hs).2⟩
  | raise e => exact fun s' hs => ⟨(h s' hs).1, (h s' hs).2, (h' s' hs).2⟩
  | act update next ih => exact fun s' hs => ⟨(h s' hs).1, ih s' (h s' hs).2 (h' s' hs).2⟩
  | pick next ih => exact fun s' hs => ⟨(h s' hs).1, fun b => ih b ((h s' hs).2 b) ((h' s' hs).2 b)⟩

/-- Less interference is no harm. -/
theorem Spec.narrow {S : σ → σ → Prop} (hS : ∀ s s', S s s' → R s s') {x : Prog σ ε α} {s : σ}
    (h : Spec R I Q E x s) : Spec S I Q E x s := by
  induction x generalizing s with
  | ret a => exact fun s' hs => h s' (hS s s' hs)
  | raise e => exact fun s' hs => h s' (hS s s' hs)
  | act update next ih => exact fun s' hs => ⟨(h s' (hS s s' hs)).1, ih s' (h s' (hS s s' hs)).2⟩
  | pick next ih => exact fun s' hs => ⟨(h s' (hS s s' hs)).1, fun b => ih b ((h s' (hS s s' hs)).2 b)⟩

/-- A sequence: the second part starts where the first one returned. -/
theorem Spec.bind (hR : ∀ s, R s s) {x : Prog σ ε α} {f : α → Prog σ ε β} {Q' : β → σ → Prop} {s : σ}
    (h : Spec R I (fun a s => Spec R I Q' E (f a) s) E x s) : Spec R I Q' E (x >>= f) s := by
  show Spec R I Q' E (Prog.bind f x) s
  induction x generalizing s with
  | ret a => exact (h s (hR s)).2
  | raise e => exact h
  | act update next ih => exact fun s' hs => ⟨(h s' hs).1, ih s' (h s' hs).2⟩
  | pick next ih => exact fun s' hs => ⟨(h s' hs).1, fun b => ih b ((h s' hs).2 b)⟩

/-- A guarded part: the handler starts where the exception left. -/
theorem Spec.handle (hR : ∀ s, R s s) {x : Prog σ ε α} {f : ε → Prog σ ε α} {s : σ}
    (h : Spec R I Q (fun e s => Spec R I Q E (f e) s) x s) : Spec R I Q E (handle f x) s := by
  induction x generalizing s with
  | ret a => exact h
  | raise e => exact (h s (hR s)).2
  | act update next ih => exact fun s' hs => ⟨(h s' hs).1, ih s' (h s' hs).2⟩
  | pick next ih => exact fun s' hs => ⟨(h s' hs).1, fun b => ih b ((h s' hs).2 b)⟩

theorem Spec.get (hR : ∀ s s' s'', R s s' → R s' s'' → R s s'') {Q : σ → σ → Prop} {s : σ}
    (h : ∀ s', R s s' → I s') (hQ : ∀ s' s'', R s s' → R s' s'' → Q s' s'') : Spec R I Q E get s :=
  fun s' hs => ⟨h s' hs, fun s'' hs' => ⟨h s'' (hR s s' s'' hs hs'), hQ s' s'' hs hs'⟩⟩

/-- One move keeps the guarantee. -/
theorem Spec.step {other : κ → σ → Option σ} (hR : ∀ s, R s s)
    (hR' : ∀ s s' s'', R s s' → R s' s'' → R s s'')
    (hother : ∀ k s s', other k s = some s' → R s s') {m : Move κ} {x y : Prog σ ε α} {s s' : σ}
    (h : Spec R I Q E x s) (hm : step other m (x, s) = some (y, s')) : Spec R I Q E y s' := by
  cases m with
  | other k =>
    obtain ⟨s'', hs, hy⟩ := Option.map_eq_some_iff.mp hm
    obtain ⟨rfl, rfl⟩ := Prod.mk.inj hy
    exact h.stable hR' (hother k s s'' hs)
  | act =>
    cases x with
    | act update next =>
      obtain ⟨rfl, rfl⟩ := Prod.mk.inj (Option.some.inj hm)
      exact (h s (hR s)).2
    | ret a => cases hm
    | raise e => cases hm
    | pick next => cases hm
  | pick answer =>
    cases x with
    | pick next =>
      obtain ⟨rfl, rfl⟩ := Prod.mk.inj (Option.some.inj hm)
      exact (h s (hR s)).2 answer
    | ret a => cases hm
    | raise e => cases hm
    | act update next => cases hm

/-- **Soundness**: a guarantee holds at every point of every run. -/
theorem Spec.drive {other : κ → σ → Option σ} (hR : ∀ s, R s s)
    (hR' : ∀ s s' s'', R s s' → R s' s'' → R s s'')
    (hother : ∀ k s s', other k s = some s' → R s s') {moves : List (Move κ)} {x y : Prog σ ε α} {s s' : σ}
    (h : Spec R I Q E x s) (hrun : drive other moves (x, s) = some (y, s')) : Spec R I Q E y s' := by
  induction moves generalizing x s with
  | nil =>
    obtain ⟨rfl, rfl⟩ := Prod.mk.inj (Option.some.inj hrun)
    exact h
  | cons m moves ih =>
    obtain ⟨⟨x', s''⟩, hm, hrun⟩ := Option.bind_eq_some_iff.mp hrun
    exact ih (h.step hR hR' hother hm) hrun

/-- The run in which nothing else happens. -/
theorem Spec.calm (hR : ∀ s, R s s) {x : Prog σ ε α} {s : σ} (h : Spec R I Q E x s) :
    (∃ a s', Prog.calm x s = (.ok a, s') ∧ Q a s') ∨ ∃ e s', Prog.calm x s = (.error e, s') ∧ E e s' := by
  induction x generalizing s with
  | ret a => exact Or.inl ⟨a, s, rfl, (h s (hR s)).2⟩
  | raise e => exact Or.inr ⟨e, s, rfl, (h s (hR s)).2⟩
  | act update next ih => exact ih s (h s (hR s)).2
  | pick next ih => exact ih false ((h s (hR s)).2 false)

/-- An action while nobody else acts. -/
theorem Spec.act_alone {update : σ → σ} {next : σ → Prog σ ε α} {s : σ} (hI : I s)
    (h : Spec Eq I Q E (next s) (update s)) : Spec Eq I Q E (act update next) s := by
  rintro _ rfl
  exact ⟨hI, h⟩

/-! ### Outlines

`Outline R I P x Q E` is a specification of `x` from every state of `P`, for
assertions other parties cannot falsify (`Stable`). -/

def Stable (R : σ → σ → Prop) (P : σ → Prop) : Prop := ∀ s s', P s → R s s' → P s'

theorem Stable.and {P P' : σ → Prop} (h : Stable R P) (h' : Stable R P') : Stable R fun s => P s ∧ P' s :=
  fun s s' hs hR => ⟨h s s' hs.1 hR, h' s s' hs.2 hR⟩

theorem stable_const (p : Prop) : Stable R fun _ => p := fun _ _ hp _ => hp

/-- Nobody else acts. -/
theorem stable_eq (P : σ → Prop) : Stable Eq P := fun _ _ h hs => hs ▸ h

/-- An assertion of a program whose states must all satisfy `I`. -/
structure Kept (R : σ → σ → Prop) (I P : σ → Prop) : Prop where
  stable : Stable R P
  inside : ∀ s, P s → I s

def Outline (R : σ → σ → Prop) (I P : σ → Prop) (x : Prog σ ε α) (Q : α → σ → Prop) (E : ε → σ → Prop) : Prop :=
  ∀ s, P s → Spec R I Q E x s

section Outline
variable {P P' : σ → Prop} {Q : α → σ → Prop}

theorem Outline.ret (hP : Kept R I P) {a : α} (h : ∀ s, P s → Q a s) : Outline R I P (ret a) Q E :=
  fun s hs s' hs' => ⟨hP.inside s' (hP.stable s s' hs hs'), h s' (hP.stable s s' hs hs')⟩

theorem Outline.raise (hP : Kept R I P) {e : ε} (h : ∀ s, P s → E e s) : Outline R I P (raise e) Q E :=
  fun s hs s' hs' => ⟨hP.inside s' (hP.stable s s' hs hs'), h s' (hP.stable s s' hs hs')⟩

theorem Outline.act (hP : Kept R I P) {f : σ → σ} {next : σ → Prog σ ε α}
    (h : ∀ s, P s → Spec R I Q E (next s) (f s)) : Outline R I P (act f next) Q E :=
  fun s hs s' hs' => ⟨hP.inside s' (hP.stable s s' hs hs'), h s' (hP.stable s s' hs hs')⟩

theorem Outline.bind (hR : ∀ s, R s s) {x : Prog σ ε α} {f : α → Prog σ ε β} {Q' : β → σ → Prop}
    (hx : Outline R I P x Q E) (hf : ∀ a, Outline R I (Q a) (f a) Q' E) : Outline R I P (x >>= f) Q' E :=
  fun s hs => Spec.bind hR ((hx s hs).mono (fun a s' h => hf a s' h) fun _ _ h => h)

theorem Outline.handle (hR : ∀ s, R s s) {x : Prog σ ε α} {h : ε → Prog σ ε α}
    (hx : Outline R I P x Q E) (hh : ∀ e, Outline R I (E e) (h e) Q E') :
    Outline R I P (Prog.handle h x) Q E' :=
  fun s hs => Spec.handle hR ((hx s hs).mono (fun _ _ h => h) fun e s' h' => hh e s' h')

theorem Outline.mono {x : Prog σ ε α} (h : Outline R I P x Q E) (hP : ∀ s, P' s → P s)
    (hQ : ∀ a s, Q a s → Q' a s) (hE : ∀ e s, E e s → E' e s) : Outline R I P' x Q' E' :=
  fun s hs => (h s (hP s hs)).mono hQ hE

theorem Outline.modify {Q : Unit → σ → Prop} (hP : Kept R I P) (hQ : Kept R I (Q ())) {f : σ → σ}
    (h : ∀ s, P s → Q () (f s)) : Outline R I P (modify f) Q E :=
  .act hP fun s hs => Outline.ret hQ (fun _ h => h) (f s) (h s hs)

/-- What was read holds of the state it was read from; others may have acted since. -/
theorem Outline.get (hP : Kept R I P) {Q : σ → σ → Prop} (h : ∀ s s', P s → R s s' → Q s s') :
    Outline R I P get Q E :=
  .act hP fun s hs s' hs' => ⟨hP.inside s' (hP.stable s s' hs hs'), h s s' hs hs'⟩

theorem Outline.fault (hP : Kept R I P) {e : ε} (h : ∀ s, P s → E e s) :
    Outline R I P (fault e) (fun _ => P) E := by
  refine fun s hs s' hs' => ⟨hP.inside s' (hP.stable s s' hs hs'), fun b => ?_⟩
  cases b with
  | false => exact Outline.ret hP (fun _ h => h) s' (hP.stable s s' hs hs')
  | true => exact Outline.raise hP h s' (hP.stable s s' hs hs')

theorem Outline.ite {c : Prop} [Decidable c] {x y : Prog σ ε α} (hx : c → Outline R I P x Q E)
    (hy : ¬ c → Outline R I P y Q E) : Outline R I P (if c then x else y) Q E := by
  split
  · exact hx ‹_›
  · exact hy ‹_›

theorem Outline.ofExcept (hP : Kept R I P) {r : Except ε α} (hQ : ∀ a, r = .ok a → ∀ s, P s → Q a s)
    (hE : ∀ e, r = .error e → ∀ s, P s → E e s) : Outline R I P (ofExcept r) Q E := by
  cases r with
  | ok a => exact .ret hP (hQ a rfl)
  | error e => exact .raise hP (hE e rfl)

theorem Outline.atomically (hP : Kept R I P) (hQ : ∀ a, Kept R I (Q a)) (hE : ∀ e, Kept R I (E e))
    {f : σ → Except ε α × σ} (hok : ∀ s a, P s → (f s).1 = .ok a → Q a (f s).2)
    (herror : ∀ s e, P s → (f s).1 = .error e → E e (f s).2) : Outline R I P (atomically f) Q E := by
  refine .act hP fun s hs => ?_
  cases hf : (f s).1 with
  | ok a => exact Outline.ret (hQ a) (fun _ h => h) _ (hok s a hs hf)
  | error e => exact Outline.raise (hE e) (fun _ h => h) _ (herror s e hs hf)

end Outline

/-! ### Triples

Outlines that ask nothing of the states in between. -/

def Triple (R : σ → σ → Prop) (P : σ → Prop) (x : Prog σ ε α) (Q : α → σ → Prop) (E : ε → σ → Prop) : Prop :=
  Outline R (fun _ => True) P x Q E

theorem Outline.triple {P : σ → Prop} {Q : α → σ → Prop} {x : Prog σ ε α} (h : Outline R I P x Q E) :
    Triple R P x Q E :=
  fun s hs => (h s hs).weaken fun _ _ => trivial

theorem Stable.kept {P : σ → Prop} (hP : Stable R P) : Kept R (fun _ => True) P := ⟨hP, fun _ _ => trivial⟩

section Triple
variable {P P' : σ → Prop} {Q : α → σ → Prop}

theorem Triple.ret (hP : Stable R P) {a : α} (h : ∀ s, P s → Q a s) : Triple R P (ret a) Q E :=
  Outline.ret hP.kept h

theorem Triple.raise (hP : Stable R P) {e : ε} (h : ∀ s, P s → E e s) : Triple R P (raise e) Q E :=
  Outline.raise hP.kept h

theorem Triple.bind (hR : ∀ s, R s s) {x : Prog σ ε α} {f : α → Prog σ ε β} {Q' : β → σ → Prop}
    (hx : Triple R P x Q E) (hf : ∀ a, Triple R (Q a) (f a) Q' E) : Triple R P (x >>= f) Q' E :=
  Outline.bind hR hx hf

theorem Triple.handle (hR : ∀ s, R s s) {x : Prog σ ε α} {h : ε → Prog σ ε α}
    (hx : Triple R P x Q E) (hh : ∀ e, Triple R (E e) (h e) Q E') : Triple R P (Prog.handle h x) Q E' :=
  Outline.handle hR hx hh

theorem Triple.mono {x : Prog σ ε α} (h : Triple R P x Q E) (hP : ∀ s, P' s → P s)
    (hQ : ∀ a s, Q a s → Q' a s) (hE : ∀ e s, E e s → E' e s) : Triple R P' x Q' E' :=
  Outline.mono h hP hQ hE

theorem Triple.modify {Q : Unit → σ → Prop} (hP : Stable R P) (hQ : Stable R (Q ())) {f : σ → σ}
    (h : ∀ s, P s → Q () (f s)) : Triple R P (modify f) Q E :=
  Outline.modify hP.kept hQ.kept h

theorem Triple.get (hP : Stable R P) {Q : σ → σ → Prop} (h : ∀ s s', P s → R s s' → Q s s') :
    Triple R P get Q E :=
  Outline.get hP.kept h

theorem Triple.fault (hP : Stable R P) {e : ε} (h : ∀ s, P s → E e s) :
    Triple R P (fault e) (fun _ => P) E :=
  Outline.fault hP.kept h

theorem Triple.ite {c : Prop} [Decidable c] {x y : Prog σ ε α} (hx : c → Triple R P x Q E)
    (hy : ¬ c → Triple R P y Q E) : Triple R P (if c then x else y) Q E := Outline.ite hx hy

/-- Of any program, nothing is known. -/
theorem Triple.any (x : Prog σ ε α) : Triple R P x (fun _ _ => True) fun _ _ => True := by
  intro s hs
  clear hs
  induction x generalizing s with
  | ret a => exact fun _ _ => ⟨trivial, trivial⟩
  | raise e => exact fun _ _ => ⟨trivial, trivial⟩
  | act update next ih => exact fun s' _ => ⟨trivial, ih s' (update s')⟩
  | pick next ih => exact fun s' _ => ⟨trivial, fun b => ih b s'⟩

/-- A run to the end meets the postconditions. -/
theorem Triple.result {other : κ → σ → Option σ} (hR : ∀ s, R s s)
    (hR' : ∀ s s' s'', R s s' → R s' s'' → R s s'') (hother : ∀ k s s', other k s = some s' → R s s')
    {x : Prog σ ε α} (h : Triple R P x Q E) {moves : List (Move κ)} {s s' : σ} {r : Except ε α} (hs : P s)
    (hrun : outcome other moves x s = some (r, s')) :
    (∃ a, r = .ok a ∧ Q a s') ∨ ∃ e, r = .error e ∧ E e s' := by
  obtain ⟨⟨y, s''⟩, hdrive, hend⟩ := Option.bind_eq_some_iff.mp hrun
  have hspec := (h s hs).drive hR hR' hother hdrive
  cases y with
  | ret a =>
    obtain ⟨rfl, rfl⟩ := Prod.mk.inj (Option.some.inj hend)
    exact Or.inl ⟨a, rfl, (hspec s'' (hR s'')).2⟩
  | raise e =>
    obtain ⟨rfl, rfl⟩ := Prod.mk.inj (Option.some.inj hend)
    exact Or.inr ⟨e, rfl, (hspec s'' (hR s'')).2⟩
  | act update next => cases hend
  | pick next => cases hend

/-- The postconditions agree: it holds at the end of every run. -/
theorem Triple.ends {other : κ → σ → Option σ} (hR : ∀ s, R s s)
    (hR' : ∀ s s' s'', R s s' → R s' s'' → R s s'') (hother : ∀ k s s', other k s = some s' → R s s')
    {x : Prog σ ε α} (h : Triple R P x (fun _ => P') fun _ => P') {moves : List (Move κ)} {s s' : σ}
    {r : Except ε α} (hs : P s) (hrun : outcome other moves x s = some (r, s')) : P' s' := by
  rcases h.result hR hR' hother hs hrun with ⟨_, _, hP⟩ | ⟨_, _, hP⟩ <;> exact hP

end Triple

/-! ### Programs that keep an assertion -/

/-- The assertion holds at every point of every run. -/
def Keeps (R : σ → σ → Prop) (P : σ → Prop) (x : Prog σ ε α) : Prop :=
  Outline R P P x (fun _ => P) fun _ => P

theorem Stable.self {P : σ → Prop} (hP : Stable R P) : Kept R P P := ⟨hP, fun _ h => h⟩

section Keeps
variable {P : σ → Prop}

theorem Keeps.outline {x : Prog σ ε α} (h : Keeps R P x) (hI : ∀ s, P s → I s) :
    Outline R I P x (fun _ => P) fun _ => P :=
  fun s hs => (h s hs).weaken hI

theorem Keeps.triple {x : Prog σ ε α} (h : Keeps R P x) : Triple R P x (fun _ => P) fun _ => P :=
  h.outline fun _ _ => trivial

theorem Keeps.ret (hP : Stable R P) (a : α) : Keeps R P (ret a : Prog σ ε α) := Outline.ret hP.self fun _ h => h

theorem Keeps.raise (hP : Stable R P) (e : ε) : Keeps R P (raise e : Prog σ ε α) :=
  Outline.raise hP.self fun _ h => h

theorem Keeps.act (hP : Stable R P) {f : σ → σ} {next : σ → Prog σ ε α} (hf : ∀ s, P s → P (f s))
    (hnext : ∀ s, P s → Keeps R P (next s)) : Keeps R P (act f next) :=
  Outline.act hP.self fun s hs => hnext s hs (f s) (hf s hs)

theorem Keeps.fault (hP : Stable R P) (e : ε) : Keeps R P (fault e) := Outline.fault hP.self fun _ h => h

theorem Keeps.get (hP : Stable R P) : Keeps R P (get : Prog σ ε σ) :=
  Outline.get hP.self fun s s' h hs => hP s s' h hs

theorem Keeps.modify (hP : Stable R P) {f : σ → σ} (h : ∀ s, P s → P (f s)) :
    Keeps R P (modify f : Prog σ ε Unit) := Outline.modify (Q := fun _ => P) hP.self hP.self h

theorem Keeps.ofExcept (hP : Stable R P) (r : Except ε α) : Keeps R P (ofExcept r) :=
  Outline.ofExcept hP.self (fun _ _ _ h => h) fun _ _ _ h => h

theorem Keeps.bind (hR : ∀ s, R s s) {x : Prog σ ε α} {f : α → Prog σ ε β} (hx : Keeps R P x)
    (hf : ∀ a, Keeps R P (f a)) : Keeps R P (x >>= f) := Outline.bind hR hx hf

theorem Keeps.handle (hR : ∀ s, R s s) {x : Prog σ ε α} {h : ε → Prog σ ε α} (hx : Keeps R P x)
    (hh : ∀ e, Keeps R P (h e)) : Keeps R P (Prog.handle h x) := Outline.handle hR hx hh

theorem Keeps.forM (hR : ∀ s, R s s) (hP : Stable R P) {f : κ → Prog σ ε PUnit} {l : List κ}
    (h : ∀ k ∈ l, Keeps R P (f k)) : Keeps R P (l.forM f) := by
  induction l with
  | nil => exact .ret hP _
  | cons k l ih =>
    exact .bind hR (h k (List.mem_cons_self ..)) fun _ => ih fun k' hk => h k' (List.mem_cons_of_mem _ hk)

theorem Keeps.ite {c : Prop} [Decidable c] {x y : Prog σ ε α} (hx : Keeps R P x) (hy : Keeps R P y) :
    Keeps R P (if c then x else y) := Outline.ite (fun _ => hx) fun _ => hy

/-- So it holds wherever a run has got to. -/
theorem Keeps.drive {other : κ → σ → Option σ} (hR : ∀ s, R s s)
    (hR' : ∀ s s' s'', R s s' → R s' s'' → R s s'') (hother : ∀ k s s', other k s = some s' → R s s')
    {x y : Prog σ ε α} (h : Keeps R P x) {moves : List (Move κ)} {s s' : σ} (hs : P s)
    (hrun : drive other moves (x, s) = some (y, s')) : P s' :=
  ((h s hs).drive hR hR' hother hrun).inv hR

end Keeps

/-! ### Exceptions -/

/-- Every exception a program can raise satisfies `p`, whatever the states it reads. -/
def Raises (p : ε → Prop) : Prog σ ε α → Prop
  | ret _ => True
  | raise e => p e
  | act _ next => ∀ s, (next s).Raises p
  | pick next => ∀ b, (next b).Raises p

section Raises
variable {p q : ε → Prop}

theorem Raises.bind {x : Prog σ ε α} {f : α → Prog σ ε β} (hx : x.Raises p) (hf : ∀ a, (f a).Raises p) :
    (x >>= f).Raises p := by
  show (Prog.bind f x).Raises p
  induction x with
  | ret a => exact hf a
  | raise e => exact hx
  | act update next ih => exact fun s => ih s (hx s)
  | pick next ih => exact fun b => ih b (hx b)

theorem Raises.handle {x : Prog σ ε α} {h : ε → Prog σ ε α} (hx : x.Raises q) (hh : ∀ e, q e → (h e).Raises p) :
    (Prog.handle h x).Raises p := by
  induction x with
  | ret a => trivial
  | raise e => exact hh e hx
  | act update next ih => exact fun s => ih s (hx s)
  | pick next ih => exact fun b => ih b (hx b)

theorem Raises.get : (get : Prog σ ε σ).Raises p := fun _ => trivial

theorem Raises.modify (f : σ → σ) : (modify f : Prog σ ε Unit).Raises p := fun _ => trivial

theorem Raises.ofExcept {r : Except ε α} (h : ∀ e, r = .error e → p e) : (ofExcept r : Prog σ ε α).Raises p := by
  cases r with
  | ok a => trivial
  | error e => exact h e rfl

theorem Raises.ite {c : Prop} [Decidable c] {x y : Prog σ ε α} (hx : c → x.Raises p) (hy : ¬ c → y.Raises p) :
    (if c then x else y).Raises p := by
  split
  · exact hx ‹_›
  · exact hy ‹_›

theorem Raises.forM {f : κ → Prog σ ε PUnit} {l : List κ} (h : ∀ k ∈ l, (f k).Raises p) : (l.forM f).Raises p := by
  induction l with
  | nil => trivial
  | cons k l ih =>
    exact .bind (h k (List.mem_cons_self ..)) fun _ => ih fun k' hk => h k' (List.mem_cons_of_mem _ hk)

/-- What is known of the exceptions holds of those that leave. -/
theorem Outline.raises {P : σ → Prop} {x : Prog σ ε α} (h : Outline R I P x Q E) (hx : x.Raises p) :
    Outline R I P x Q fun e s => p e ∧ E e s := by
  intro s hs
  have hspec := h s hs
  clear h hs
  induction x generalizing s with
  | ret a => exact hspec
  | raise e => exact fun s' hs' => ⟨(hspec s' hs').1, hx, (hspec s' hs').2⟩
  | act update next ih => exact fun s' hs' => ⟨(hspec s' hs').1, ih s' (hx s') _ (hspec s' hs').2⟩
  | pick next ih => exact fun s' hs' => ⟨(hspec s' hs').1, fun b => ih b (hx b) _ ((hspec s' hs').2 b)⟩

end Raises

end Prog

end LeanFlow.General
