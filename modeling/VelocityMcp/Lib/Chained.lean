import Mathlib.Data.List.Nodup
import Mathlib.Data.List.TakeWhile

/-!
# Lib.Chained — hash tables with chains

A table is the list of its entries in the order in which its chains are gone through, bucket after bucket.
-/

namespace Lib.Chained

variable {κ ν : Type} [DecidableEq κ] (bucket : κ → ℕ)

/-- What is stored under a key. -/
def lookup (k : κ) (es : List (κ × ν)) : Option ν := (es.find? fun e => e.1 = k).map Prod.snd

def keys (es : List (κ × ν)) : List κ := es.map Prod.fst

/-- An entry takes the place of the one with its key, or becomes the head of its chain. -/
def enter (k : κ) (v : ν) (es : List (κ × ν)) : List (κ × ν) :=
  if k ∈ keys es then es.map fun e => if e.1 = k then (k, v) else e
  else (es.takeWhile fun e => bucket e.1 < bucket k) ++ (k, v) :: es.dropWhile fun e => bucket e.1 < bucket k

/-- Several entries, one after the other. -/
def enterAll (new es : List (κ × ν)) : List (κ × ν) := new.foldl (fun es e => enter bucket e.1 e.2 es) es

variable {bucket} {k k' : κ} {v w : ν} {es new : List (κ × ν)}

@[simp] theorem lookup_nil : lookup k ([] : List (κ × ν)) = none := rfl

theorem lookup_cons (e : κ × ν) : lookup k (e :: es) = if e.1 = k then some e.2 else lookup k es := by
  unfold lookup
  by_cases h : e.1 = k
  · rw [List.find?_cons_of_pos (by simpa using h), if_pos h, Option.map_some]
  · rw [List.find?_cons_of_neg (by simpa using h), if_neg h]

theorem lookup_append (es fs : List (κ × ν)) : lookup k (es ++ fs) = (lookup k es).or (lookup k fs) := by
  induction es with
  | nil => rfl
  | cons e es ih =>
    rw [List.cons_append, lookup_cons, lookup_cons, ih]
    split_ifs <;> rfl

theorem lookup_eq_none : lookup k es = none ↔ k ∉ keys es := by
  induction es with
  | nil => simp [keys]
  | cons e es ih =>
    rw [lookup_cons, keys, List.map_cons, List.mem_cons, ← keys]
    split_ifs with h
    · simp [h]
    · rw [ih]
      simp [Ne.symm h]

theorem mem_of_lookup (h : lookup k es = some v) : (k, v) ∈ es := by
  obtain ⟨⟨l, w⟩, he, rfl⟩ := Option.map_eq_some_iff.mp h
  obtain rfl : l = k := by simpa using List.find?_some he
  exact List.mem_of_find?_eq_some he

theorem lookup_of_mem (hnodup : (keys es).Nodup) (h : (k, v) ∈ es) : lookup k es = some v := by
  induction es with
  | nil => cases h
  | cons e es ih =>
    rw [keys, List.map_cons, List.nodup_cons] at hnodup
    rw [lookup_cons]
    rcases List.mem_cons.mp h with rfl | h
    · rw [if_pos rfl]
    · have hne : e.1 ≠ k := fun heq => hnodup.1 (heq ▸ List.mem_map_of_mem (f := Prod.fst) h)
      rw [if_neg hne]
      exact ih hnodup.2 h

theorem lookup_replace (h : k ∈ keys es) :
    lookup k' (es.map fun e => if e.1 = k then (k, v) else e) = if k' = k then some v else lookup k' es := by
  induction es with
  | nil => cases h
  | cons e es ih =>
    rw [List.map_cons, lookup_cons, lookup_cons]
    by_cases he : e.1 = k
    · rw [if_pos he]
      by_cases hk : k' = k
      · rw [if_pos hk, if_pos hk.symm]
      · rw [if_neg hk, if_neg (Ne.symm hk), if_neg fun heq => hk (heq.symm.trans he)]
        by_cases hmem : k ∈ keys es
        · rw [ih hmem, if_neg hk]
        · have hsame : (es.map fun e => if e.1 = k then (k, v) else e) = es := by
            refine (List.map_congr_left (g := id) fun f hf => ?_).trans (List.map_id es)
            have hf := List.mem_map_of_mem (f := Prod.fst) hf
            exact if_neg fun heq : f.1 = k => hmem (heq ▸ hf)
          rw [hsame]
    · have hmem : k ∈ keys es := (List.mem_cons.mp h).resolve_left (Ne.symm he)
      rw [if_neg he, ih hmem]
      by_cases hk : k' = k
      · rw [if_pos hk, if_pos hk, if_neg fun heq => he (heq.trans hk)]
      · rw [if_neg hk, if_neg hk]

theorem keys_replace (es : List (κ × ν)) : keys (es.map fun e => if e.1 = k then (k, v) else e) = keys es := by
  rw [keys, List.map_map]
  refine List.map_congr_left fun e _ => ?_
  show (if e.1 = k then (k, v) else e).1 = e.1
  split_ifs with h
  · exact h.symm
  · rfl

/-- **What is stored after an entry.** -/
theorem lookup_enter : lookup k' (enter bucket k v es) = if k' = k then some v else lookup k' es := by
  unfold enter
  split_ifs with hmem hk hk
  · rw [lookup_replace hmem, if_pos hk]
  · rw [lookup_replace hmem, if_neg hk]
  · have hnone : lookup k' (es.takeWhile fun e => bucket e.1 < bucket k) = none := by
      refine lookup_eq_none.mpr fun hin => hmem ?_
      rw [← hk]
      exact ((List.takeWhile_sublist _).map Prod.fst).subset hin
    rw [lookup_append, hnone, Option.none_or, lookup_cons, if_pos hk.symm]
  · rw [lookup_append, lookup_cons, if_neg (Ne.symm hk), ← lookup_append, List.takeWhile_append_dropWhile]

/-- Under which keys something stands after that. -/
theorem mem_keys_enter : k' ∈ keys (enter bucket k v es) ↔ k' = k ∨ k' ∈ keys es := by
  rw [← not_iff_not, not_or, ← lookup_eq_none, ← lookup_eq_none, lookup_enter]
  split_ifs with h <;> simp [h]

/-- The keys stay apart. -/
theorem nodup_enter (h : (keys es).Nodup) : (keys (enter bucket k v es)).Nodup := by
  unfold enter
  split_ifs with hmem
  · rwa [keys_replace]
  · have hperm : (keys ((es.takeWhile fun e => bucket e.1 < bucket k) ++
        (k, v) :: es.dropWhile fun e => bucket e.1 < bucket k)).Perm (k :: keys es) := by
      conv_rhs => rw [← List.takeWhile_append_dropWhile (p := fun e : κ × ν => bucket e.1 < bucket k) (l := es)]
      rw [keys, keys, List.map_append, List.map_append, List.map_cons]
      exact List.perm_middle
    exact hperm.nodup_iff.mpr (List.nodup_cons.mpr ⟨hmem, h⟩)

theorem mem_keys_enterAll : k ∈ keys (enterAll bucket new es) ↔ k ∈ keys new ∨ k ∈ keys es := by
  induction new generalizing es with
  | nil => simp [enterAll, keys]
  | cons e new ih =>
    show k ∈ keys (enterAll bucket new (enter bucket e.1 e.2 es)) ↔ _
    rw [ih, mem_keys_enter, keys, keys, keys, List.map_cons, List.mem_cons]
    tauto

theorem nodup_enterAll (h : (keys es).Nodup) : (keys (enterAll bucket new es)).Nodup := by
  induction new generalizing es with
  | nil => exact h
  | cons e new ih => exact ih (nodup_enter h)

/-- **What is stored after several entries**: the last of a key. -/
theorem lookup_enterAll : lookup k (enterAll bucket new es) = (lookup k new.reverse).or (lookup k es) := by
  induction new generalizing es with
  | nil => rfl
  | cons e new ih =>
    show lookup k (enterAll bucket new (enter bucket e.1 e.2 es)) = _
    rw [ih, lookup_enter, List.reverse_cons, lookup_append, Option.or_assoc, lookup_cons]
    congr 1
    by_cases hk : k = e.1
    · rw [if_pos hk, if_pos hk.symm]
      rfl
    · rw [if_neg hk, if_neg (Ne.symm hk)]
      rfl

omit [DecidableEq κ] in
theorem keys_reverse (es : List (κ × ν)) : keys es.reverse = (keys es).reverse := List.map_reverse

theorem lookup_reverse (hnodup : (keys es).Nodup) : lookup k es.reverse = lookup k es := by
  cases h : lookup k es with
  | none =>
    rw [lookup_eq_none] at h ⊢
    rwa [keys_reverse, List.mem_reverse]
  | some v =>
    refine lookup_of_mem ?_ (List.mem_reverse.mpr (mem_of_lookup h))
    rwa [keys_reverse, List.nodup_reverse]

end Lib.Chained
