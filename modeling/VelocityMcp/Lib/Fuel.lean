import Mathlib.Order.Basic
import Mathlib.Tactic.Common

/-!
# Lib.Fuel — computations that may have no end, or no meaning

A computation that is given some fuel ends with a value, comes to a point that has no defined meaning, or uses up its
fuel before; what it has got by then is kept.
-/

namespace Lib

/-- How a computation ends; `r` is what it has got when its fuel is used up. -/
inductive Run (ρ α : Type) where
  | done (a : α)
  | undefined
  | outOfFuel (r : ρ)
deriving DecidableEq, Repr

namespace Run

variable {ρ α β γ : Type}

def bind : Run ρ α → (α → Run ρ β) → Run ρ β
  | done a, f => f a
  | undefined, _ => undefined
  | outOfFuel r, _ => outOfFuel r

instance : Monad (Run ρ) where
  pure := done
  bind := bind

def map (f : α → β) : Run ρ α → Run ρ β
  | done a => done (f a)
  | undefined => undefined
  | outOfFuel r => outOfFuel r

@[simp] theorem pure_eq (a : α) : (pure a : Run ρ α) = done a := rfl

@[simp] theorem done_bind (a : α) (f : α → Run ρ β) : (done a >>= f) = f a := rfl

@[simp] theorem undefined_bind (f : α → Run ρ β) : ((undefined : Run ρ α) >>= f) = undefined := rfl

@[simp] theorem outOfFuel_bind (r : ρ) (f : α → Run ρ β) : ((outOfFuel r : Run ρ α) >>= f) = outOfFuel r := rfl

theorem bind_eq_done {x : Run ρ α} {f : α → Run ρ β} {b : β} :
    (x >>= f) = done b ↔ ∃ a, x = done a ∧ f a = done b := by
  cases x with
  | done a => simp
  | undefined => simp
  | outOfFuel r => simp

end Run

end Lib
