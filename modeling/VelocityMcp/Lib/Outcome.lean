import Mathlib.Data.Nat.Notation
import Mathlib.Tactic.Common

/-!
# Lib.Outcome — the three ways a checked computation ends

`Outcome ε α` is a value, a returned error of type `ε`, or a panic (an index out of range, an unwrap
of nothing).  Errors and panics both stop a computation, but only errors are handed to the caller.
`Ensures` is what is proved of a computation without looking at its errors.
-/

namespace Lib

/-- How a computation ends: with a value, with a returned error, or in a panic. -/
inductive Outcome (ε α : Type) where
  | ok (a : α)
  | err (e : ε)
  | panic
deriving DecidableEq, Repr

namespace Outcome

variable {ε ε' α β γ : Type}

/-- Continue with the value; errors and panics pass through. -/
def bind : Outcome ε α → (α → Outcome ε β) → Outcome ε β
  | ok a, f => f a
  | err e, _ => err e
  | panic, _ => panic

instance : Monad (Outcome ε) where
  pure := ok
  bind := bind

def mapErr (f : ε → ε') : Outcome ε α → Outcome ε' α
  | ok a => ok a
  | err e => err (f e)
  | panic => panic

def ofExcept : Except ε α → Outcome ε α
  | .ok a => ok a
  | .error e => err e

def toOption : Outcome ε α → Option α
  | ok a => some a
  | err _ => none
  | panic => none

@[simp] theorem pure_eq (a : α) : (pure a : Outcome ε α) = ok a := rfl

@[simp] theorem ok_bind (a : α) (f : α → Outcome ε β) : (ok a >>= f) = f a := rfl

@[simp] theorem err_bind (e : ε) (f : α → Outcome ε β) : (err e >>= f) = err e := rfl

@[simp] theorem panic_bind (f : α → Outcome ε β) : ((panic : Outcome ε α) >>= f) = panic := rfl

@[simp] theorem mapErr_ok (f : ε → ε') (a : α) : mapErr f (ok a) = ok a := rfl

@[simp] theorem mapErr_err (f : ε → ε') (e : ε) : mapErr f (err e : Outcome ε α) = err (f e) := rfl

@[simp] theorem mapErr_panic (f : ε → ε') : mapErr f (panic : Outcome ε α) = panic := rfl

@[simp] theorem ofExcept_ok (a : α) : ofExcept (.ok a : Except ε α) = ok a := rfl

@[simp] theorem ofExcept_error (e : ε) : ofExcept (.error e : Except ε α) = err e := rfl

theorem ofExcept_eq_ok {x : Except ε α} {a : α} : ofExcept x = ok a ↔ x = .ok a := by
  cases x <;> simp

theorem bind_bind (x : Outcome ε α) (f : α → Outcome ε β) (g : β → Outcome ε γ) :
    ((x >>= f) >>= g) = (x >>= fun a => f a >>= g) := by
  cases x <;> rfl

theorem bind_eq_ok {x : Outcome ε α} {f : α → Outcome ε β} {b : β} :
    (x >>= f) = ok b ↔ ∃ a, x = ok a ∧ f a = ok b := by
  cases x with
  | ok a => simp
  | err e => simp
  | panic => simp

theorem ok_pair_inj {a a' : α} {b b' : β} (h : (ok (a, b) : Outcome ε (α × β)) = ok (a', b')) :
    a = a' ∧ b = b' := by
  rwa [ok.injEq, Prod.mk.injEq] at h

theorem ite_err_eq_ok {p : Prop} [Decidable p] {e : ε} {x : Outcome ε α} {a : α} :
    (if p then err e else x) = ok a ↔ ¬ p ∧ x = ok a := by
  by_cases h : p <;> simp [h]

theorem mapErr_eq_ok {f : ε → ε'} {x : Outcome ε α} {a : α} : mapErr f x = ok a ↔ x = ok a := by
  cases x <;> simp

theorem mapErr_eq_panic {f : ε → ε'} {x : Outcome ε α} : mapErr f x = panic ↔ x = panic := by
  cases x <;> simp

/-- Every error that is returned satisfies `P`. -/
def ErrIn (P : ε → Prop) (x : Outcome ε α) : Prop := ∀ e, x = err e → P e

section ErrIn

variable {P : ε → Prop}

theorem errIn_ok (a : α) : ErrIn P (ok a) := fun e h => absurd h (by simp)

theorem errIn_err {e : ε} (h : P e) : ErrIn P (err e : Outcome ε α) := fun _ he => err.inj he ▸ h

theorem ErrIn.bind {x : Outcome ε α} {f : α → Outcome ε β} (hx : ErrIn P x)
    (hf : ∀ a, x = ok a → ErrIn P (f a)) : ErrIn P (x >>= f) := by
  intro e he
  cases x with
  | ok a => exact hf a rfl e he
  | err e' =>
    obtain rfl := err.inj he
    exact hx e' rfl
  | panic => exact absurd he (by simp)

theorem ErrIn.mapErr {Q : ε' → Prop} {f : ε → ε'} {x : Outcome ε α} (hx : ErrIn P x)
    (hf : ∀ e, P e → Q (f e)) : ErrIn Q (x.mapErr f) := by
  intro e he
  cases x with
  | ok a => exact absurd he (by simp)
  | err e' => exact err.inj he ▸ hf e' (hx e' rfl)
  | panic => exact absurd he (by simp)

end ErrIn

theorem bind_ne_panic {x : Outcome ε α} {f : α → Outcome ε β} (hx : x ≠ panic)
    (hf : ∀ a, x = ok a → f a ≠ panic) : (x >>= f) ≠ panic := by
  cases x with
  | ok a => exact hf a rfl
  | err e => simp
  | panic => exact absurd rfl hx

theorem ite_err_ne_panic {p : Prop} [Decidable p] {e : ε} {x : Outcome ε α} (h : ¬ p → x ≠ panic) :
    (if p then err e else x) ≠ panic := by
  by_cases hp : p
  · rw [if_pos hp]
    exact fun heq => nomatch heq
  · rw [if_neg hp]
    exact h hp

/-- There is no panic, and a value satisfies `Q`. -/
def Ensures (Q : α → Prop) (x : Outcome ε α) : Prop := x ≠ panic ∧ ∀ a, x = ok a → Q a

section Ensures

variable {Q : α → Prop}

theorem ensures_ok {a : α} (h : Q a) : Ensures Q (ok a : Outcome ε α) :=
  ⟨(fun heq => nomatch heq), fun _ heq => ok.inj heq ▸ h⟩

theorem ensures_err (e : ε) : Ensures Q (err e : Outcome ε α) :=
  ⟨(fun heq => nomatch heq), fun _ heq => nomatch heq⟩

/-- **A sequence**: what comes after is told what was ensured before. -/
theorem Ensures.bind {R : β → Prop} {x : Outcome ε α} {f : α → Outcome ε β} (hx : Ensures Q x)
    (hf : ∀ a, Q a → Ensures R (f a)) : Ensures R (x >>= f) := by
  cases x with
  | ok a => exact hf a (hx.2 a rfl)
  | err e => exact ensures_err e
  | panic => exact absurd rfl hx.1

theorem Ensures.mono {R : α → Prop} {x : Outcome ε α} (hx : Ensures Q x) (h : ∀ a, Q a → R a) : Ensures R x :=
  ⟨hx.1, fun a ha => h a (hx.2 a ha)⟩

end Ensures

end Outcome

end Lib
