import Mathlib.Data.Set.Function
import Mathlib.Data.List.Basic

/-!
# Lib.HashTree — hash trees over lists

`eq_of_root_eq`: without collisions the root determines the list.
-/

namespace Lib

/-! ## Levels -/

section Levels

variable {α β : Type*} (f : α → α → α)

/-- One level: pairs are put together, and an odd element is promoted. -/
def pairUp : List α → List α
  | a :: b :: l => f a b :: pairUp l
  | l => l

def levelPairs : List α → List (α × α)
  | a :: b :: l => (a, b) :: levelPairs l
  | _ => []

theorem length_pairUp_le : ∀ l : List α, (pairUp f l).length ≤ l.length
  | [] => le_rfl
  | [_] => le_rfl
  | a :: b :: l => by
    have ih := length_pairUp_le l
    rw [pairUp, List.length_cons, List.length_cons, List.length_cons]
    omega

theorem length_pairUp_lt {l : List α} (h : 1 < l.length) : (pairUp f l).length < l.length := by
  rcases l with _ | ⟨a, _ | ⟨b, l⟩⟩
  · simp at h
  · simp at h
  · have hle := length_pairUp_le f l
    rw [pairUp, List.length_cons, List.length_cons, List.length_cons]
    omega

/-- All levels, up to the one with a single element. -/
def reduce (l : List α) : List α := if 1 < l.length then reduce (pairUp f l) else l
termination_by l.length
decreasing_by exact length_pairUp_lt f ‹_›

def allPairs (l : List α) : List (α × α) := if 1 < l.length then levelPairs l ++ allPairs (pairUp f l) else []
termination_by l.length
decreasing_by exact length_pairUp_lt f ‹_›

variable {f} {g : β → β → β} {k : α → β}

theorem reduce_of_lt {l : List α} (h : 1 < l.length) : reduce f l = reduce f (pairUp f l) := by
  rw [reduce, if_pos h]

theorem reduce_of_le {l : List α} (h : ¬ 1 < l.length) : reduce f l = l := by rw [reduce, if_neg h]

theorem allPairs_of_lt {l : List α} (h : 1 < l.length) : allPairs f l = levelPairs l ++ allPairs f (pairUp f l) := by
  rw [allPairs, if_pos h]

theorem allPairs_of_le {l : List α} (h : ¬ 1 < l.length) : allPairs f l = [] := by rw [allPairs, if_neg h]

@[simp] theorem reduce_singleton (a : α) : reduce f [a] = [a] := reduce_of_le (by simp)

@[simp] theorem reduce_pair (a b : α) : reduce f [a, b] = [f a b] := by
  rw [reduce_of_lt (by simp)]
  exact reduce_singleton _

@[simp] theorem allPairs_nil : allPairs f [] = [] := allPairs_of_le (by simp)

@[simp] theorem allPairs_singleton (a : α) : allPairs f [a] = [] := allPairs_of_le (by simp)

@[simp] theorem allPairs_pair (a b : α) : allPairs f [a, b] = [(a, b)] := by
  rw [allPairs_of_lt (by simp)]
  exact congrArg ((a, b) :: ·) (allPairs_singleton _)

theorem forall_mem_levelPairs {P : α → Prop} : ∀ {l : List α}, (∀ a ∈ l, P a) → ∀ p ∈ levelPairs l, P p.1 ∧ P p.2
  | [], _, _, hp => absurd hp List.not_mem_nil
  | [_], _, _, hp => absurd hp List.not_mem_nil
  | a :: b :: l, h, p, hp => by
    rw [List.forall_mem_cons, List.forall_mem_cons] at h
    rcases List.mem_cons.mp hp with rfl | hp
    · exact ⟨h.1, h.2.1⟩
    · exact forall_mem_levelPairs h.2.2 p hp

theorem forall_mem_pairUp {P : α → Prop} (hf : ∀ a b, P (f a b)) : ∀ {l : List α}, (∀ a ∈ l, P a) →
    ∀ a ∈ pairUp f l, P a
  | [], _, _, ha => absurd ha List.not_mem_nil
  | [_], h, a, ha => h a ha
  | a :: b :: l, h, c, hc => by
    rw [List.forall_mem_cons, List.forall_mem_cons] at h
    rcases List.mem_cons.mp hc with rfl | hc
    · exact hf a b
    · exact forall_mem_pairUp hf h.2.2 c hc

theorem forall_mem_allPairs {P : α → Prop} (hf : ∀ a b, P (f a b)) {l : List α} (h : ∀ a ∈ l, P a) :
    ∀ p ∈ allPairs f l, P p.1 ∧ P p.2 := by
  induction l using reduce.induct f with
  | case1 l hl ih =>
    intro p hp
    rw [allPairs_of_lt hl, List.mem_append] at hp
    rcases hp with hp | hp
    · exact forall_mem_levelPairs h p hp
    · exact ih (forall_mem_pairUp hf h) p hp
  | case2 l hl =>
    intro p hp
    rw [allPairs_of_le hl] at hp
    exact absurd hp List.not_mem_nil

theorem map_pairUp (h : ∀ a b, k (f a b) = g (k a) (k b)) : ∀ l : List α, (pairUp f l).map k = pairUp g (l.map k)
  | [] => rfl
  | [_] => rfl
  | a :: b :: l => by
    rw [pairUp, List.map_cons, h, map_pairUp h l]
    rfl

theorem map_reduce (h : ∀ a b, k (f a b) = g (k a) (k b)) (l : List α) : (reduce f l).map k = reduce g (l.map k) := by
  induction l using reduce.induct f with
  | case1 l hl ih =>
    have hl' : 1 < (l.map k).length := by rwa [List.length_map]
    rw [reduce_of_lt hl, reduce_of_lt hl', ih, map_pairUp h]
  | case2 l hl =>
    have hl' : ¬ 1 < (l.map k).length := by rwa [List.length_map]
    rw [reduce_of_le hl, reduce_of_le hl']

theorem pairUp_ne_nil {l : List α} (h : l ≠ []) : pairUp f l ≠ [] := by
  rcases l with _ | ⟨a, _ | ⟨b, l⟩⟩
  · exact absurd rfl h
  · exact h
  · exact List.cons_ne_nil _ _

theorem exists_reduce_eq {l : List α} (h : l ≠ []) : ∃ a, reduce f l = [a] := by
  induction l using reduce.induct f with
  | case1 l hl ih =>
    rw [reduce_of_lt hl]
    exact ih (pairUp_ne_nil h)
  | case2 l hl =>
    rw [reduce_of_le hl]
    exact List.length_eq_one_iff.mp (le_antisymm (not_lt.mp hl) (List.length_pos_iff.mpr h))

end Levels

/-! ## Trees -/

/-- A binary tree with values at its leaves. -/
inductive HashTree (α : Type*) where
  | leaf (a : α)
  | node (l r : HashTree α)

inductive HashInput (α β : Type*) where
  | leaf (a : α)
  | node (x y : β)

namespace HashTree

variable {α β : Type*} (H : HashInput α β → β)

def hash : HashTree α → β
  | leaf a => H (.leaf a)
  | node l r => H (.node l.hash r.hash)

/-- All that is hashed for a tree. -/
def inputs : HashTree α → Set (HashInput α β)
  | leaf a => {.leaf a}
  | node l r => insert (.node (l.hash H) (r.hash H)) (l.inputs ∪ r.inputs)

def leaves : HashTree α → List α
  | leaf a => [a]
  | node l r => l.leaves ++ r.leaves

variable {H}

theorem hash_eq_input (H : HashInput α β → β) (t : HashTree α) : ∃ i ∈ t.inputs H, t.hash H = H i := by
  cases t with
  | leaf a => exact ⟨_, rfl, rfl⟩
  | node l r => exact ⟨_, Set.mem_insert _ _, rfl⟩

theorem eq_of_hash_eq {t t' : HashTree α} (hfree : ∀ i ∈ t.inputs H, ∀ j ∈ t'.inputs H, H i = H j → i = j)
    (h : t.hash H = t'.hash H) : t = t' := by
  induction t generalizing t' with
  | leaf a =>
    cases t' with
    | leaf a' =>
      have hinput := hfree _ rfl _ rfl h
      injection hinput with ha
      rw [ha]
    | node l' r' =>
      have hinput := hfree _ rfl _ (Set.mem_insert _ _) h
      cases hinput
  | node l r ihl ihr =>
    cases t' with
    | leaf a' =>
      have hinput := hfree _ (Set.mem_insert _ _) _ rfl h
      cases hinput
    | node l' r' =>
      have hinput := hfree _ (Set.mem_insert _ _) _ (Set.mem_insert _ _) h
      injection hinput with hl hr
      have hleft : l = l' := by
        refine ihl (fun i hi j hj => hfree i ?_ j ?_) hl
        · exact Set.mem_insert_of_mem _ (Set.mem_union_left _ hi)
        · exact Set.mem_insert_of_mem _ (Set.mem_union_left _ hj)
      have hright : r = r' := by
        refine ihr (fun i hi j hj => hfree i ?_ j ?_) hr
        · exact Set.mem_insert_of_mem _ (Set.mem_union_right _ hi)
        · exact Set.mem_insert_of_mem _ (Set.mem_union_right _ hj)
      rw [hleft, hright]

theorem flatMap_leaves_pairUp : ∀ ts : List (HashTree α), (pairUp node ts).flatMap leaves = ts.flatMap leaves
  | [] => rfl
  | [_] => rfl
  | t :: t' :: ts => by
    rw [pairUp, List.flatMap_cons, flatMap_leaves_pairUp ts, List.flatMap_cons, List.flatMap_cons, leaves,
      List.append_assoc]

theorem flatMap_leaves_reduce (ts : List (HashTree α)) : (reduce node ts).flatMap leaves = ts.flatMap leaves := by
  induction ts using reduce.induct node with
  | case1 ts h ih => rw [reduce_of_lt h, ih, flatMap_leaves_pairUp]
  | case2 ts h => rw [reduce_of_le h]

def nodeInput (p : β × β) : HashInput α β := .node p.1 p.2

theorem mem_inputs_pairUp {i : HashInput α β} : ∀ {ts : List (HashTree α)} {t : HashTree α}, t ∈ pairUp node ts →
    i ∈ t.inputs H → (∃ s ∈ ts, i ∈ s.inputs H) ∨ i ∈ (levelPairs (ts.map (hash H))).map nodeInput
  | [], _, ht, _ => absurd ht List.not_mem_nil
  | [s], t, ht, hi => Or.inl ⟨t, ht, hi⟩
  | s :: s' :: ts, t, ht, hi => by
    rw [pairUp, List.mem_cons] at ht
    rcases ht with rfl | ht
    · rcases hi with rfl | hi | hi
      · exact Or.inr List.mem_cons_self
      · exact Or.inl ⟨s, List.mem_cons_self, hi⟩
      · exact Or.inl ⟨s', List.mem_cons_of_mem _ List.mem_cons_self, hi⟩
    · rcases mem_inputs_pairUp ht hi with ⟨u, hu, hi⟩ | hi
      · exact Or.inl ⟨u, List.mem_cons_of_mem _ (List.mem_cons_of_mem _ hu), hi⟩
      · exact Or.inr (List.mem_cons_of_mem _ hi)

/-- What is hashed for the tree was hashed for the ones it is put together from, or for a pair. -/
theorem mem_inputs_reduce {i : HashInput α β} {ts : List (HashTree α)} {t : HashTree α} (ht : t ∈ reduce node ts)
    (hi : i ∈ t.inputs H) : (∃ s ∈ ts, i ∈ s.inputs H) ∨
      i ∈ (allPairs (fun x y => H (.node x y)) (ts.map (hash H))).map nodeInput := by
  induction ts using reduce.induct node with
  | case1 ts h ih =>
    have h' : 1 < (ts.map (hash H)).length := by rwa [List.length_map]
    rw [reduce_of_lt h] at ht
    rw [allPairs_of_lt h', List.map_append, List.mem_append]
    rcases ih ht with ⟨s, hs, hi⟩ | hi
    · rcases mem_inputs_pairUp hs hi with hold | hpair
      · exact Or.inl hold
      · exact Or.inr (Or.inl hpair)
    · rw [map_pairUp (f := node) (g := fun x y => H (.node x y)) (fun _ _ => rfl)] at hi
      exact Or.inr (Or.inr hi)
  | case2 ts h =>
    rw [reduce_of_le h] at ht
    exact Or.inl ⟨t, ht, hi⟩

end HashTree

/-! ## Roots of lists -/

section Roots

variable {α β : Type*} (H : HashInput α β → β)

/-- The root over these values, if there are any. -/
def hashRoot (l : List α) : List β := reduce (fun x y => H (.node x y)) (l.map fun a => H (.leaf a))

def rootInputs (l : List α) : List (HashInput α β) :=
  l.map .leaf ++ (allPairs (fun x y => H (.node x y)) (l.map fun a => H (.leaf a))).map HashTree.nodeInput

variable {H}

theorem exists_hashTree {l : List α} (h : l ≠ []) : ∃ t : HashTree α, hashRoot H l = [t.hash H] ∧ t.leaves = l ∧
    ∀ i ∈ t.inputs H, i ∈ rootInputs H l := by
  have hne : l.map HashTree.leaf ≠ [] := fun hnil => h (List.map_eq_nil_iff.mp hnil)
  obtain ⟨t, ht⟩ := exists_reduce_eq (f := HashTree.node) hne
  have hhash : (l.map HashTree.leaf).map (HashTree.hash H) = l.map fun a => H (.leaf a) := by
    rw [List.map_map]
    rfl
  refine ⟨t, ?_, ?_, ?_⟩
  · rw [hashRoot, ← hhash, ← map_reduce (f := HashTree.node) (fun _ _ => rfl), ht]
    rfl
  · have hleaves := HashTree.flatMap_leaves_reduce (l.map HashTree.leaf)
    rw [ht, List.flatMap_cons, List.flatMap_nil, List.append_nil, List.flatMap_map] at hleaves
    rw [hleaves]
    exact List.flatMap_singleton' l
  · intro i hi
    rw [rootInputs, List.mem_append]
    rcases HashTree.mem_inputs_reduce (ht ▸ List.mem_singleton_self t) hi with ⟨s, hs, hi⟩ | hi
    · obtain ⟨a, ha, rfl⟩ := List.mem_map.mp hs
      obtain rfl := Set.mem_singleton_iff.mp hi
      exact Or.inl (List.mem_map_of_mem ha)
    · rw [hhash] at hi
      exact Or.inr hi

theorem exists_input_of_hashRoot {l : List α} {y : β} (h : hashRoot H l = [y]) : ∃ i ∈ rootInputs H l, y = H i := by
  have hne : l ≠ [] := by
    rintro rfl
    rw [hashRoot, List.map_nil, reduce_of_le (by simp)] at h
    cases h
  obtain ⟨t, ht, -, hinputs⟩ := exists_hashTree (H := H) hne
  obtain ⟨i, hi, hhash⟩ := t.hash_eq_input H
  rw [ht, List.cons.injEq] at h
  exact ⟨i, hinputs i hi, by rw [← h.1, hhash]⟩

theorem hashRoot_eq_nil_iff {l : List α} : hashRoot H l = [] ↔ l = [] := by
  constructor
  · intro h
    by_contra hne
    obtain ⟨t, ht, -⟩ := exists_hashTree (H := H) hne
    rw [ht] at h
    cases h
  · rintro rfl
    rw [hashRoot, List.map_nil, reduce_of_le (by simp)]

/-- **The root determines the list**, if nothing that is hashed for the one list collides with what is hashed for the
other. -/
theorem eq_of_root_eq {l l' : List α} (hfree : ∀ i ∈ rootInputs H l, ∀ j ∈ rootInputs H l', H i = H j → i = j)
    (h : hashRoot H l = hashRoot H l') : l = l' := by
  by_cases hl : l = []
  · rw [hl, hashRoot_eq_nil_iff.mpr rfl] at h
    rw [hl, hashRoot_eq_nil_iff.mp h.symm]
  · have hl' : l' ≠ [] := by
      rintro rfl
      rw [hashRoot_eq_nil_iff.mpr rfl] at h
      exact hl (hashRoot_eq_nil_iff.mp h)
    obtain ⟨t, ht, rfl, hinputs⟩ := exists_hashTree (H := H) hl
    obtain ⟨t', ht', rfl, hinputs'⟩ := exists_hashTree (H := H) hl'
    rw [ht, ht', List.cons.injEq] at h
    rw [HashTree.eq_of_hash_eq (fun i hi j hj => hfree i (hinputs i hi) j (hinputs' j hj)) h.1]

end Roots

end Lib
