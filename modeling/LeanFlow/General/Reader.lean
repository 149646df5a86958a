import Mathlib.Data.List.Basic

/-! Readers: Mealy machines with one symbol of lookahead.

A reader consumes a list one symbol at a time, writes one symbol for each, and
may look at the symbol after the one it consumes. `read s a x` is what it does
to `a` from the state `s` when `x` follows `a`; with the follower explicit,
reading a concatenation is reading its parts (`read_append`), and what a part
does depends on its context only through the state before it and the symbol
after it. -/
namespace LeanFlow.General

structure Reader (σ α β : Type) where
  step : σ → α → Option α → β × σ

namespace Reader
variable {σ α β : Type} (R : Reader σ α β)

/-- The symbol after a position: the head of what is left, else what follows. -/
def follower (rest : List α) (x : Option α) : Option α := rest.head?.or x

/-- What is written for `a` read from `s` when `x` follows it, and the state after it. -/
def read : σ → List α → Option α → List β × σ
  | s, [], _ => ([], s)
  | s, c :: rest, x =>
    let one := R.step s c (follower rest x)
    let more := read one.2 rest x
    (one.1 :: more.1, more.2)

@[simp] theorem read_nil (s : σ) (x : Option α) : R.read s [] x = ([], s) := rfl

theorem read_cons (s : σ) (c : α) (rest : List α) (x : Option α) :
    R.read s (c :: rest) x =
      ((R.step s c (follower rest x)).1 :: (R.read (R.step s c (follower rest x)).2 rest x).1,
        (R.read (R.step s c (follower rest x)).2 rest x).2) := rfl

@[simp] theorem follower_nil (x : Option α) : follower [] x = x := by simp [follower]

@[simp] theorem follower_cons (c : α) (rest : List α) (x : Option α) :
    follower (c :: rest) x = some c := by simp [follower]

theorem follower_append (a b : List α) (x : Option α) :
    follower (a ++ b) x = follower a (follower b x) := by
  cases a <;> simp [follower]

@[simp] theorem length_read (s : σ) (a : List α) (x : Option α) :
    (R.read s a x).1.length = a.length := by
  induction a generalizing s with
  | nil => rfl
  | cons c rest ih => simp [read_cons, ih]

/-- Reading a concatenation is reading its parts, the second one being what follows the first. -/
theorem read_append (s : σ) (a b : List α) (x : Option α) :
    R.read s (a ++ b) x =
      ((R.read s a (follower b x)).1 ++ (R.read (R.read s a (follower b x)).2 b x).1,
        (R.read (R.read s a (follower b x)).2 b x).2) := by
  induction a generalizing s with
  | nil => rfl
  | cons c rest ih =>
    rw [List.cons_append, read_cons, follower_append, ih]
    rfl

theorem read_append_fst (s : σ) (a b : List α) (x : Option α) :
    (R.read s (a ++ b) x).1 =
      (R.read s a (follower b x)).1 ++ (R.read (R.read s a (follower b x)).2 b x).1 := by
  rw [read_append]

end Reader
end LeanFlow.General
