import Mathlib.Logic.Function.Basic
import VelocityMcp.Lib.Bytes

/-!
# Lib.Memory — a byte memory that copies change one store at a time

* `storesAt a bs`: the stores that copy `bs` to the addresses from `a` on; `runStores` makes them.
* `Holds m a bs`: the bytes `bs` lie in memory from `a` on.  Stores elsewhere keep it, and a copy's own
  stores bring it about.

A copy that is still under way is described by the memory its remaining stores lead to, `runStores m todo`:
its own next store changes nothing about that memory, and another party's store changes it at one address.
-/

namespace Lib

/-- A byte memory. -/
abbrev Mem := ℕ → UInt8

def Mem.store (m : Mem) (a : ℕ) (x : UInt8) : Mem := Function.update m a x

@[simp] theorem Mem.store_same (m : Mem) (a : ℕ) (x : UInt8) : m.store a x a = x := by
  simp [Mem.store]

theorem Mem.store_of_ne (m : Mem) {a b : ℕ} (x : UInt8) (h : b ≠ a) : m.store a x b = m b := by
  simp [Mem.store, h]

/-- The stores of a copy, in the order it makes them. -/
def storesAt (a : ℕ) : Bytes → List (ℕ × UInt8)
  | [] => []
  | x :: bs => (a, x) :: storesAt (a + 1) bs

def runStores (m : Mem) : List (ℕ × UInt8) → Mem
  | [] => m
  | (a, x) :: todo => runStores (m.store a x) todo

/-- The bytes `bs` lie in memory from `a` on. -/
def Holds (m : Mem) (a : ℕ) (bs : Bytes) : Prop := ∀ (i : ℕ) (h : i < bs.length), m (a + i) = bs[i]

variable {m m' : Mem} {a : ℕ} {bs : Bytes} {todo : List (ℕ × UInt8)}

/-! ## Stores -/

theorem runStores_append (m : Mem) (t t' : List (ℕ × UInt8)) :
    runStores m (t ++ t') = runStores (runStores m t) t' := by
  induction t generalizing m with
  | nil => rfl
  | cons p t ih => exact ih _

theorem mem_storesAt {p : ℕ × UInt8} (h : p ∈ storesAt a bs) : a ≤ p.1 ∧ p.1 < a + bs.length := by
  induction bs generalizing a with
  | nil => simp [storesAt] at h
  | cons x bs ih =>
    rw [List.length_cons]
    rcases List.mem_cons.mp h with rfl | h
    · exact ⟨le_rfl, by simp only; omega⟩
    · have := ih h
      omega

theorem runStores_of_notMem {c : ℕ} (h : ∀ p ∈ todo, p.1 ≠ c) : runStores m todo c = m c := by
  induction todo generalizing m with
  | nil => rfl
  | cons p todo ih =>
    rw [runStores, ih fun q hq => h q (List.mem_cons_of_mem p hq)]
    exact m.store_of_ne p.2 (h p List.mem_cons_self).symm

theorem runStores_congr {c : ℕ} (h : m c = m' c) : runStores m todo c = runStores m' todo c := by
  induction todo generalizing m m' with
  | nil => exact h
  | cons p todo ih =>
    refine ih ?_
    by_cases hc : c = p.1
    · rw [hc, Mem.store_same, Mem.store_same]
    · rw [Mem.store_of_ne _ _ hc, Mem.store_of_ne _ _ hc, h]

/-! ## What lies in memory -/

theorem Holds.congr (h : Holds m a bs) (hm : ∀ c, a ≤ c → c < a + bs.length → m' c = m c) :
    Holds m' a bs := fun i hi => by
  rw [hm (a + i) (by omega) (by omega)]
  exact h i hi

theorem Holds.runStores (h : Holds m a bs)
    (ht : ∀ p ∈ todo, p.1 < a ∨ a + bs.length ≤ p.1) : Holds (runStores m todo) a bs :=
  h.congr fun c h₁ h₂ => runStores_of_notMem fun p hp hpc => by
    have := ht p hp
    omega

theorem holds_storesAt (m : Mem) (a : ℕ) (bs : Bytes) : Holds (runStores m (storesAt a bs)) a bs := by
  induction bs generalizing m a with
  | nil => exact fun i hi => absurd hi (Nat.not_lt_zero i)
  | cons x bs ih =>
    intro i hi
    cases i with
    | zero =>
      have hx : ∀ p ∈ storesAt (a + 1) bs, p.1 ≠ a := fun p hp => by
        have := mem_storesAt hp
        omega
      have := runStores_of_notMem (m := m.store a x) hx
      rwa [m.store_same] at this
    | succ i =>
      have := ih (m.store a x) (a + 1) i (by simpa using hi)
      rwa [Nat.add_right_comm] at this

/-- A reader that has read a prefix of what lies there, and reads one byte more, has again a prefix of it. -/
theorem Holds.snoc {got : Bytes} (h : Holds m a bs) (hp : got <+: bs) (hl : got.length < bs.length) :
    got ++ [m (a + got.length)] <+: bs := by
  obtain ⟨rest, rfl⟩ := hp
  cases rest with
  | nil => simp at hl
  | cons x rest =>
    rw [h got.length hl]
    exact ⟨rest, by simp⟩

end Lib
