import Mathlib.Data.List.Basic
import Mathlib.Order.MinMax
import Mathlib.Tactic.SplitIfs

/-!
# Lib.ValueStack — a stack of limited height, and buffers on it

`runStack limit s ops`: operations on a stack, the top first.  Nothing is returned if there is no room for a value, if
there are too few values to pop, or if a buffer is used while it is not on top.
* `Leaves ops need net`: on any stack, `ops` need room for `need` values, and leave `net` values behind.
-/

namespace Lib

inductive StackSlot where
  | value
  | buffer
deriving DecidableEq

inductive StackOp where
  | push
  | pop (n : ℕ)
  /-- All values are removed. -/
  | clear
  /-- So many values are pushed, and there is room for them. -/
  | results (n : ℕ)
  | openBuffer
  | add
  /-- The buffer becomes a value. -/
  | closeBuffer
deriving DecidableEq

@[grind =] def StackOp.apply (limit : ℕ) (s : List StackSlot) : StackOp → Option (List StackSlot)
  | push => if s.length < limit then some (.value :: s) else none
  | pop n => if n ≤ s.length then some (s.drop n) else none
  | clear => some []
  | results n => some (List.replicate n .value ++ s)
  | openBuffer => if s.length < limit then some (.buffer :: s) else none
  | add => if s.head? = some .buffer then some s else none
  | closeBuffer => if s.head? = some .buffer then some (.value :: s.tail) else none

@[grind =] def runStack (limit : ℕ) : List StackSlot → List StackOp → Option (List StackSlot)
  | s, [] => some s
  | s, op :: ops => (op.apply limit s).bind fun t => runStack limit t ops

/-- On any stack, there must be room for `need` values, and `net` values are left. -/
def Leaves (ops : List StackOp) (need net : ℕ) : Prop :=
  net ≤ need ∧ ∀ limit s, s.length ≤ limit →
    runStack limit s ops = if s.length + need ≤ limit then some (List.replicate net .value ++ s) else none

variable {ops ops' : List StackOp} {need need' net net' limit m n : ℕ} {s : List StackSlot}

theorem runStack_append (limit : ℕ) (s : List StackSlot) (ops ops' : List StackOp) :
    runStack limit s (ops ++ ops') = (runStack limit s ops).bind fun t => runStack limit t ops' := by
  induction ops generalizing s with
  | nil => rfl
  | cons op ops ih =>
    rw [List.cons_append, runStack, runStack, Option.bind_assoc]
    exact congrArg _ (funext fun t => ih t)

theorem runStack_singleton (limit : ℕ) (s : List StackSlot) (op : StackOp) :
    runStack limit s [op] = op.apply limit s := by
  rw [runStack]
  exact Option.bind_fun_some _

theorem runStack_push (limit : ℕ) (s : List StackSlot) (ops : List StackOp) :
    runStack limit s (.push :: ops) = if s.length < limit then runStack limit (.value :: s) ops else none := by
  rw [runStack, StackOp.apply]
  split_ifs <;> rfl

theorem runStack_pop_one (limit : ℕ) (x : StackSlot) (s : List StackSlot) (ops : List StackOp) :
    runStack limit (x :: s) (.pop 1 :: ops) = runStack limit s ops := by
  rw [runStack, StackOp.apply, if_pos (by rw [List.length_cons]; omega)]
  rfl

theorem runStack_add_of_value (hs : s.head? ≠ some .buffer) (ops : List StackOp) :
    runStack limit s (.add :: ops) = none := by
  rw [runStack, StackOp.apply, if_neg hs]
  rfl

theorem runStack_add (limit : ℕ) (s : List StackSlot) (ops : List StackOp) :
    runStack limit (.buffer :: s) (.add :: ops) = runStack limit (.buffer :: s) ops := rfl

namespace Leaves

theorem run (h : Leaves ops need net) (hs : s.length + need ≤ limit) :
    runStack limit s ops = some (List.replicate net .value ++ s) := by
  rw [h.2 limit s (Nat.le_of_add_right_le hs), if_pos hs]

theorem isSome_iff (h : Leaves ops need net) (hs : s.length ≤ limit) :
    (runStack limit s ops).isSome ↔ s.length + need ≤ limit := by
  rw [h.2 limit s hs]
  split_ifs with hroom <;> simp [hroom]

theorem run_append_of_balanced (h : Leaves ops need 0) (hs : s.length ≤ limit) (ops' : List StackOp) :
    runStack limit s (ops ++ ops') = if s.length + need ≤ limit then runStack limit s ops' else none := by
  rw [runStack_append, h.2 limit s hs]
  split_ifs <;> rfl

theorem of_eq (h : Leaves ops need net) (hneed : need = need') (hnet : net = net') : Leaves ops need' net' :=
  hneed ▸ hnet ▸ h

theorem nil : Leaves [] 0 0 := by
  refine ⟨le_rfl, fun limit s hs => ?_⟩
  rw [if_pos (by omega)]
  rfl

theorem push : Leaves [.push] 1 1 := by
  refine ⟨le_rfl, fun limit s hs => ?_⟩
  rw [runStack_singleton]
  rfl

/-- How it is put together. -/
theorem append (h : Leaves ops need net) (h' : Leaves ops' need' net') :
    Leaves (ops ++ ops') (max need (net + need')) (net + net') := by
  have hnet := h.1
  have hnet' := h'.1
  refine ⟨by omega, fun limit s hs => ?_⟩
  rw [runStack_append, h.2 limit s hs]
  split_ifs with hfirst hboth hboth
  · rw [Option.bind_some, h'.run (by rw [List.length_append, List.length_replicate]; omega), ← List.append_assoc,
      List.replicate_append_replicate, Nat.add_comm net']
  · rw [Option.bind_some, h'.2 limit _ (by rw [List.length_append, List.length_replicate]; omega), if_neg]
    rw [List.length_append, List.length_replicate]
    omega
  · omega
  · rfl

/-- And taken apart. -/
theorem pop (h : Leaves ops need net) (hm : m ≤ net) : Leaves (ops ++ [.pop m]) need (net - m) := by
  have hnet := h.1
  refine ⟨by omega, fun limit s hs => ?_⟩
  rw [runStack_append, h.2 limit s hs]
  split_ifs
  · rw [Option.bind_some, runStack_singleton, StackOp.apply, if_pos (by simp; omega),
      List.drop_append_of_le_length (by simpa using hm), List.drop_replicate]
  · rfl

theorem buffer (n : ℕ) : Leaves (.openBuffer :: (List.replicate n .add ++ [.closeBuffer])) 1 1 := by
  refine ⟨le_rfl, fun limit s hs => ?_⟩
  have hadds : ∀ n, runStack limit (.buffer :: s) (List.replicate n .add ++ [.closeBuffer]) = some (.value :: s) := by
    intro n
    induction n with
    | zero => rfl
    | succ n ih => exact ih
  rw [runStack, StackOp.apply]
  split_ifs with hroom hle hle
  · exact hadds n
  · exact absurd hroom hle
  · exact absurd hle hroom
  · rfl

end Leaves

end Lib
