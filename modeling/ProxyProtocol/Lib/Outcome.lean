import Mathlib.Data.List.Basic
import Mathlib.Tactic.Common

/-! # Outcomes of checked code

Code that indexes slices, adds machine integers and loops can end in four
ways: with a value, with an error it reports to its caller, by panicking, or
not at all. `Outcome` keeps the four apart, so "never panics" and "always
terminates" are statements about the model and not conventions of it.

The primitives below are the checked ones of the source language: an index
out of range, a slice that does not fit and an addition past the word size
all panic. Each has one lemma per way it succeeds; code that stays in range
is rewritten with these to the unchecked function it computes.
-/

namespace Wire

/-- The result of running a fallible computation. `diverge` stands for a loop
that used up the fuel it was given. -/
inductive Outcome (ε α : Type) where
  | ok (a : α)
  | err (e : ε)
  | panic
  | diverge
deriving DecidableEq, Repr

namespace Outcome

variable {ε α β : Type}

/-- Sequencing: anything but a value ends the computation. -/
def bind : Outcome ε α → (α → Outcome ε β) → Outcome ε β
  | ok a, f => f a
  | err e, _ => err e
  | panic, _ => panic
  | diverge, _ => diverge

instance : Monad (Outcome ε) where
  pure := ok
  bind := bind

@[simp] theorem pure_eq (a : α) : (pure a : Outcome ε α) = ok a := rfl
@[simp] theorem ok_bind (a : α) (f : α → Outcome ε β) : (ok a >>= f) = f a := rfl
@[simp] theorem err_bind (e : ε) (f : α → Outcome ε β) : (err e >>= f) = err e := rfl
@[simp] theorem panic_bind (f : α → Outcome ε β) : (panic >>= f) = panic := rfl
@[simp] theorem diverge_bind (f : α → Outcome ε β) : (diverge >>= f) = diverge := rfl

/-- A sequence that ends with a value passed through one on the way. -/
theorem bind_eq_ok {x : Outcome ε α} {f : α → Outcome ε β} {b : β} :
    (x >>= f) = ok b ↔ ∃ a, x = ok a ∧ f a = ok b := by
  constructor
  · intro h
    cases x with
    | ok a => exact ⟨a, rfl, h⟩
    | err e => cases h
    | panic => cases h
    | diverge => cases h
  · rintro ⟨a, rfl, h⟩
    exact h

/-- A sequence that ends with an error got it from one of its two parts. -/
theorem bind_eq_err {x : Outcome ε α} {f : α → Outcome ε β} {e : ε} :
    (x >>= f) = err e ↔ x = err e ∨ ∃ a, x = ok a ∧ f a = err e := by
  cases x <;> simp

instance : LawfulMonad (Outcome ε) :=
  LawfulMonad.mk' _
    (by intro _ x; cases x <;> rfl)
    (by intro _ _ x f; rfl)
    (by intro _ _ _ x f g; cases x <;> rfl)

/-- Change the value and the error. -/
def bimap {ε' : Type} (g : ε → ε') (f : α → β) : Outcome ε α → Outcome ε' β
  | ok a => ok (f a)
  | err e => err (g e)
  | panic => panic
  | diverge => diverge

/-- A sequence is changed by changing its two parts. -/
theorem bimap_bind {γ δ : Type} {g : ε → ε} {f : α → β} {k : γ → δ} {x : Outcome ε α}
    {y : α → Outcome ε γ} {y' : β → Outcome ε δ}
    (h : ∀ a, x = ok a → y' (f a) = (y a).bimap g k) :
    (x.bimap g f >>= y') = (x >>= y).bimap g k := by
  cases x with
  | ok a => exact h a rfl
  | err e => rfl
  | panic => rfl
  | diverge => rfl

/-- The computation ends with a value or an error: no panic, no endless loop. -/
def Returns : Outcome ε α → Prop
  | ok _ => True
  | err _ => True
  | panic => False
  | diverge => False

/-- The computation ends, with a value or with an error that satisfies `P`. -/
def EndsIn (P : ε → Prop) : Outcome ε α → Prop
  | ok _ => True
  | err e => P e
  | panic => False
  | diverge => False

section EndsIn

variable {P : ε → Prop}

theorem EndsIn.bind {x : Outcome ε α} {f : α → Outcome ε β} (hx : EndsIn P x)
    (hf : ∀ a, x = ok a → EndsIn P (f a)) : EndsIn P (x >>= f) := by
  cases x with
  | ok a => exact hf a rfl
  | err e => exact hx
  | panic => exact hx
  | diverge => exact hx

theorem EndsIn.returns {x : Outcome ε α} (h : EndsIn P x) : Returns x := by
  cases x with
  | ok a => exact trivial
  | err e => exact trivial
  | panic => exact h
  | diverge => exact h

theorem EndsIn.mono {Q : ε → Prop} {x : Outcome ε α} (h : EndsIn P x) (hPQ : ∀ e, P e → Q e) :
    EndsIn Q x := by
  cases x with
  | ok a => exact trivial
  | err e => exact hPQ e h
  | panic => exact h
  | diverge => exact h

theorem EndsIn.of_err {x : Outcome ε α} {e : ε} (h : EndsIn P x) (hx : x = err e) : P e := by
  subst hx
  exact h

end EndsIn

theorem Returns.bind {x : Outcome ε α} {f : α → Outcome ε β} (hx : Returns x)
    (hf : ∀ a, x = ok a → Returns (f a)) : Returns (x >>= f) := by
  cases x with
  | ok a => exact hf a rfl
  | err e => exact trivial
  | panic => exact hx
  | diverge => exact hx

/-- What returns without a value returns an error. -/
theorem Returns.exists_err {x : Outcome ε α} (hx : Returns x) (h : ∀ a, x ≠ ok a) :
    ∃ e, x = err e := by
  cases x with
  | ok a => exact absurd rfl (h a)
  | err e => exact ⟨e, rfl⟩
  | panic => exact absurd hx id
  | diverge => exact absurd hx id

/-- An assertion in front of a value. -/
theorem ite_panic_eq_ok {p : Prop} [Decidable p] {a b : α} :
    (if p then ok a else panic : Outcome ε α) = ok b ↔ p ∧ a = b := by
  by_cases h : p
  · simp [h]
  · simp [h]

/-- `ok_or`: a missing value is the error `e`. -/
def okOr (e : ε) : Option α → Outcome ε α
  | some a => ok a
  | none => err e

/-- `unwrap`: a missing value is a panic. -/
def unwrap : Option α → Outcome ε α
  | some a => ok a
  | none => panic

@[simp] theorem okOr_some (e : ε) (a : α) : okOr e (some a) = ok a := rfl
@[simp] theorem okOr_none (e : ε) : okOr e (none : Option α) = err e := rfl
@[simp] theorem unwrap_some (a : α) : (unwrap (some a) : Outcome ε α) = ok a := rfl

theorem okOr_eq_ok {e : ε} {o : Option α} {a : α} : okOr e o = ok a ↔ o = some a := by
  cases o <;> simp [okOr]

theorem endsIn_okOr {P : ε → Prop} {e : ε} (he : P e) (o : Option α) : EndsIn P (okOr e o) := by
  cases o with
  | none => exact he
  | some a => exact trivial

/-! ## Checked indexing and slicing -/

/-- `xs[i]`. -/
def index (xs : List α) (i : ℕ) : Outcome ε α := unwrap xs[i]?

/-- `&xs[lo..hi]`. -/
def slice (xs : List α) (lo hi : ℕ) : Outcome ε (List α) :=
  if lo ≤ hi ∧ hi ≤ xs.length then ok ((xs.take hi).drop lo) else panic

/-- `&xs[..hi]`. -/
def sliceTo (xs : List α) (hi : ℕ) : Outcome ε (List α) := slice xs 0 hi

/-- `&xs[lo..]`. -/
def sliceFrom (xs : List α) (lo : ℕ) : Outcome ε (List α) := slice xs lo xs.length

@[simp] theorem index_zero (x : α) (xs : List α) : (index (x :: xs) 0 : Outcome ε α) = ok x := rfl

@[simp] theorem index_succ (x : α) (xs : List α) (i : ℕ) :
    (index (x :: xs) (i + 1) : Outcome ε α) = index xs i := rfl

theorem index_of_lt {xs : List α} {i : ℕ} (h : i < xs.length) :
    (index xs i : Outcome ε α) = ok (xs.get ⟨i, h⟩) := by
  simp [index, h]

/-- Indexing behind the first of two pieces. -/
theorem index_append_right {xs : List α} {n : ℕ} (h : xs.length = n) (ys : List α) (i : ℕ) :
    (index (xs ++ ys) (n + i) : Outcome ε α) = index ys i := by
  subst h
  rw [index, List.getElem?_append_right (by omega), Nat.add_sub_cancel_left, index]

theorem slice_of_le {xs : List α} {lo hi : ℕ} (h₁ : lo ≤ hi) (h₂ : hi ≤ xs.length) :
    (slice xs lo hi : Outcome ε (List α)) = ok ((xs.take hi).drop lo) := by
  simp [slice, h₁, h₂]

theorem sliceTo_of_le {xs : List α} {hi : ℕ} (h : hi ≤ xs.length) :
    (sliceTo xs hi : Outcome ε (List α)) = ok (xs.take hi) := by
  simp [sliceTo, slice, h]

theorem sliceFrom_of_le {xs : List α} {lo : ℕ} (h : lo ≤ xs.length) :
    (sliceFrom xs lo : Outcome ε (List α)) = ok (xs.drop lo) := by
  simp [sliceFrom, slice, h]

/-- The first of two pieces. -/
theorem sliceTo_append {xs : List α} {n : ℕ} (h : xs.length = n) (ys : List α) :
    (sliceTo (xs ++ ys) n : Outcome ε (List α)) = ok xs := by
  subst h
  rw [sliceTo_of_le (by simp), List.take_left]

/-- The middle of three pieces. -/
theorem drop_take_append {xs ys : List α} {lo hi : ℕ} (h₁ : xs.length = lo)
    (h₂ : xs.length + ys.length = hi) (zs : List α) :
    ((xs ++ (ys ++ zs)).take hi).drop lo = ys := by
  subst h₁ h₂
  rw [List.take_length_add_append, List.take_left, List.drop_left]

theorem slice_append {xs ys : List α} {lo hi : ℕ} (h₁ : xs.length = lo)
    (h₂ : xs.length + ys.length = hi) (zs : List α) :
    (slice (xs ++ (ys ++ zs)) lo hi : Outcome ε (List α)) = ok ys := by
  rw [slice_of_le (by omega) (by simp; omega), drop_take_append h₁ h₂]

/-! ## Checked machine arithmetic -/

/-- `usize::MAX` on a 64-bit target. -/
def usizeMax : ℕ := 18446744073709551615

/-- `isize::MAX`, which the length of no slice exceeds. -/
def isizeMax : ℕ := 9223372036854775807

/-- `a + b` on `usize`. -/
def add (a b : ℕ) : Outcome ε ℕ := if a + b ≤ usizeMax then ok (a + b) else panic

/-- `a - b` on `usize`. -/
def sub (a b : ℕ) : Outcome ε ℕ := if b ≤ a then ok (a - b) else panic

theorem add_of_le {a b : ℕ} (h : a + b ≤ usizeMax) : (add a b : Outcome ε ℕ) = ok (a + b) := by
  simp [add, h]

/-- Sums of lengths of one header are far below the word size. -/
theorem add_of_lt {a b : ℕ} (h : a + b < 4294967296) : (add a b : Outcome ε ℕ) = ok (a + b) := by
  apply add_of_le
  unfold usizeMax
  omega

theorem add_eq_ok {a b c : ℕ} :
    (add a b : Outcome ε ℕ) = ok c ↔ a + b ≤ usizeMax ∧ a + b = c :=
  ite_panic_eq_ok

theorem add_ne_err {a b : ℕ} {e : ε} : (add a b : Outcome ε ℕ) ≠ err e := by
  unfold add
  split
  · rintro ⟨⟩
  · rintro ⟨⟩

theorem sub_of_le {a b : ℕ} (h : b ≤ a) : (sub a b : Outcome ε ℕ) = ok (a - b) := by
  simp [sub, h]

end Outcome

end Wire
