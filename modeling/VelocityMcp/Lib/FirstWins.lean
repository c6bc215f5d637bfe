import Mathlib.Data.List.Nodup

/-!
# Lib.FirstWins — lists in which every key occurs once, with the first of its values

`pushAll key xs ys` adds to `xs` what `ys` has under new keys.
-/

namespace Lib

variable {α κ : Type} [DecidableEq κ] (key : α → κ)

/-- Add `x`, unless its key is there. -/
def pushNew (xs : List α) (x : α) : List α := if key x ∈ xs.map key then xs else xs ++ [x]

def pushAll (xs ys : List α) : List α := ys.foldl (pushNew key) xs

@[simp] theorem pushAll_nil (xs : List α) : pushAll key xs [] = xs := rfl

theorem pushAll_cons (xs : List α) (y : α) (ys : List α) :
    pushAll key xs (y :: ys) = pushAll key (pushNew key xs y) ys := rfl

theorem pushAll_append (xs ys zs : List α) :
    pushAll key xs (ys ++ zs) = pushAll key (pushAll key xs ys) zs := List.foldl_append

variable {key}

theorem nodup_pushNew {xs : List α} (h : (xs.map key).Nodup) (x : α) : ((pushNew key xs x).map key).Nodup := by
  by_cases hx : key x ∈ xs.map key
  · rwa [pushNew, if_pos hx]
  · rw [pushNew, if_neg hx, List.map_append, List.map_singleton]
    exact List.nodup_append.mpr ⟨h, List.nodup_singleton _, fun a ha b hb heq => by
      rw [List.mem_singleton.mp hb] at heq
      exact hx (heq ▸ ha)⟩

/-- It keeps the keys apart. -/
theorem nodup_pushAll {xs : List α} (h : (xs.map key).Nodup) (ys : List α) :
    ((pushAll key xs ys).map key).Nodup := by
  induction ys generalizing xs with
  | nil => exact h
  | cons y ys ih => exact ih (nodup_pushNew h y)

theorem find_eq_some_of_nodup {xs : List α} (h : (xs.map key).Nodup) {x : α} (hx : x ∈ xs) :
    xs.find? (fun y => key y = key x) = some x := by
  induction xs with
  | nil => cases hx
  | cons y xs ih =>
    obtain ⟨hy, hnodup⟩ := List.nodup_cons.mp h
    obtain rfl | hx := List.mem_cons.mp hx
    · exact List.find?_cons_of_pos (by simp)
    · have hne : key y ≠ key x := fun heq => hy (heq ▸ List.mem_map_of_mem hx)
      rw [List.find?_cons_of_neg (by simpa using hne)]
      exact ih hnodup hx

theorem find_pushNew (xs ys : List α) (x : α) (k : κ) :
    (pushNew key xs x ++ ys).find? (fun y => key y = k) = (xs ++ x :: ys).find? fun y => key y = k := by
  by_cases hx : key x ∈ xs.map key
  · rw [pushNew, if_pos hx, List.find?_append, List.find?_append]
    by_cases hk : key x = k
    · -- the key is found before `x`
      obtain ⟨y, hy, hyx⟩ := List.mem_map.mp hx
      have hsome : (xs.find? fun y => key y = k).isSome :=
        List.find?_isSome.mpr ⟨y, hy, by simp [hyx, hk]⟩
      obtain ⟨z, hz⟩ := Option.isSome_iff_exists.mp hsome
      rw [hz, Option.some_or, Option.some_or]
    · rw [List.find?_cons_of_neg (by simpa using hk)]
  · rw [pushNew, if_neg hx, List.append_assoc, List.singleton_append]

theorem find_pushAll (xs ys : List α) (k : κ) :
    (pushAll key xs ys).find? (fun y => key y = k) = (xs ++ ys).find? fun y => key y = k := by
  induction ys generalizing xs with
  | nil => rw [pushAll_nil, List.append_nil]
  | cons y ys ih => rw [pushAll_cons, ih, find_pushNew]

/-- **What the result holds.** -/
theorem mem_pushAll_iff {xs : List α} (h : (xs.map key).Nodup) (ys : List α) (x : α) :
    x ∈ pushAll key xs ys ↔ (xs ++ ys).find? (fun y => key y = key x) = some x := by
  rw [← find_pushAll]
  exact ⟨find_eq_some_of_nodup (nodup_pushAll h ys), List.mem_of_find?_eq_some⟩

theorem mem_keys_pushAll (xs ys : List α) (k : κ) :
    k ∈ (pushAll key xs ys).map key ↔ ∃ y ∈ xs ++ ys, key y = k := by
  have hiff : ∀ zs : List α, (zs.find? fun y => key y = k).isSome ↔ ∃ y ∈ zs, key y = k := by
    intro zs
    rw [List.find?_isSome]
    simp only [decide_eq_true_eq]
  rw [List.mem_map, ← hiff, ← hiff, find_pushAll]

end Lib
