import Mathlib.Data.List.Basic
import Mathlib.Tactic.Common

/-!
# Lib.RefCount — values that count the references to them

`Heap β`: what lies at every address, with a count.  An address is not used a second time.
-/

namespace Lib

/-- A place for a pointer: it may not have been written yet. -/
inductive Slot where
  | unwritten
  | null
  | ref (o : ℕ)
deriving DecidableEq, Repr

/-- What the slots refer to. -/
def targets (slots : List Slot) : List ℕ :=
  slots.filterMap fun
    | .ref o => some o
    | _ => none

@[simp] theorem targets_nil : targets [] = [] := rfl

@[simp] theorem targets_null (w : List Slot) : targets (.null :: w) = targets w := rfl

@[simp] theorem targets_unwritten (w : List Slot) : targets (.unwritten :: w) = targets w := rfl

@[simp] theorem targets_ref (o : ℕ) (w : List Slot) : targets (.ref o :: w) = o :: targets w := rfl

@[simp] theorem targets_append (v w : List Slot) : targets (v ++ w) = targets v ++ targets w :=
  List.filterMap_append

@[simp] theorem targets_map_ref (os : List ℕ) : targets (os.map .ref) = os := by
  induction os with
  | nil => rfl
  | cons o os ih => rw [List.map_cons, targets_ref, ih]

theorem mem_targets {o : ℕ} {slots : List Slot} : o ∈ targets slots ↔ .ref o ∈ slots := by
  rw [targets, List.mem_filterMap]
  constructor
  · rintro ⟨s, hs, heq⟩
    cases s with
    | ref p => simpa using Option.some.inj heq ▸ hs
    | null => exact nomatch heq
    | unwritten => exact nomatch heq
  · exact fun h => ⟨_, h, rfl⟩

structure Counted (β : Type) where
  count : ℕ
  body : β
deriving DecidableEq

/-- The cells by address; a freed one is `none`. -/
structure Heap (β : Type) where
  cells : List (Option (Counted β))
deriving DecidableEq

namespace Heap

variable {β : Type}

def empty : Heap β := ⟨[]⟩

/-- The next address. -/
def size (h : Heap β) : ℕ := h.cells.length

def cell (h : Heap β) (o : ℕ) : Option (Counted β) := (h.cells[o]?).join

def count (h : Heap β) (o : ℕ) : ℕ := (h.cell o).elim 0 Counted.count

def body (h : Heap β) (o : ℕ) : Option β := (h.cell o).map Counted.body

/-- How many cells are not freed. -/
def live (h : Heap β) : ℕ := h.cells.countP Option.isSome

def put (o : ℕ) (x : Option (Counted β)) (h : Heap β) : Heap β := ⟨h.cells.set o x⟩

/-- A new cell, with one reference to it. -/
def alloc (b : β) (h : Heap β) : Heap β := ⟨h.cells ++ [some ⟨1, b⟩]⟩

/-- So many new cells with the same inside. -/
def allocs : ℕ → β → Heap β → Heap β
  | 0, _, h => h
  | n + 1, b, h => allocs n b (h.alloc b)

def putBody (o : ℕ) (b : β) (h : Heap β) : Option (Heap β) := (h.cell o).map fun c => h.put o (some ⟨c.count, b⟩)

/-- One reference more. -/
def retain (o : ℕ) (h : Heap β) : Option (Heap β) := (h.cell o).map fun c => h.put o (some ⟨c.count + 1, c.body⟩)

section Cells

variable {h : Heap β} {o p : ℕ} {c : Counted β}

theorem getElem?_of_cell (hc : h.cell o = some c) : h.cells[o]? = some (some c) := Option.join_eq_some_iff.mp hc

theorem lt_size_of_cell (hc : h.cell o = some c) : o < h.size :=
  (List.getElem?_eq_some_iff.mp (getElem?_of_cell hc)).1

theorem cell_eq_none_of_le (ho : h.size ≤ o) : h.cell o = none := by
  rw [cell, List.getElem?_eq_none ho]
  rfl

@[simp] theorem size_put (x : Option (Counted β)) : (h.put o x).size = h.size := List.length_set

@[simp] theorem size_alloc (b : β) : (h.alloc b).size = h.size + 1 := by simp [alloc, size]

theorem cell_put_self (ho : o < h.size) (x : Option (Counted β)) : (h.put o x).cell o = x := by
  rw [cell, put, List.getElem?_set_self ho]
  rfl

theorem cell_put_ne (hne : o ≠ p) (x : Option (Counted β)) : (h.put o x).cell p = h.cell p := by
  rw [cell, put, List.getElem?_set_ne hne, cell]

theorem cell_alloc_self (b : β) : (h.alloc b).cell h.size = some ⟨1, b⟩ := by simp [alloc, cell, size]

theorem cell_alloc_of_lt (b : β) (ho : o < h.size) : (h.alloc b).cell o = h.cell o := by
  rw [cell, alloc, List.getElem?_append_left ho, cell]

theorem cell_of_alloc {b : β} (hc : (h.alloc b).cell o = some c) :
    h.cell o = some c ∨ (o = h.size ∧ c = ⟨1, b⟩) := by
  have hlt := lt_size_of_cell hc
  rw [size_alloc] at hlt
  rcases Nat.lt_or_ge o h.size with ho | ho
  · rw [cell_alloc_of_lt b ho] at hc
    exact Or.inl hc
  · obtain rfl : o = h.size := by omega
    rw [cell_alloc_self] at hc
    exact Or.inr ⟨rfl, (Option.some.inj hc).symm⟩

theorem cells_allocs (n : ℕ) (b : β) (h : Heap β) :
    (h.allocs n b).cells = h.cells ++ List.replicate n (some ⟨1, b⟩) := by
  induction n generalizing h with
  | zero => simp [allocs]
  | succ n ih => rw [allocs, ih, alloc, List.replicate_succ, List.append_assoc, List.singleton_append]

theorem size_allocs (n : ℕ) (b : β) : (h.allocs n b).size = h.size + n := by
  rw [size, cells_allocs, List.length_append, List.length_replicate, size]

theorem cell_allocs_of_cell (n : ℕ) (b : β) (hc : h.cell o = some c) : (h.allocs n b).cell o = some c := by
  rw [cell, cells_allocs, List.getElem?_append_left (lt_size_of_cell hc), getElem?_of_cell hc]
  rfl

theorem cell_allocs_of_mem {n : ℕ} (b : β) (ho : o ∈ List.range' h.size n) :
    (h.allocs n b).cell o = some ⟨1, b⟩ := by
  obtain ⟨hle, hlt⟩ := List.mem_range'_1.mp ho
  unfold size at hle hlt
  rw [cell, cells_allocs, List.getElem?_append_right hle, List.getElem?_replicate, if_pos (by omega)]
  rfl

theorem cell_of_allocs {n : ℕ} {b : β} (hc : (h.allocs n b).cell o = some c) :
    h.cell o = some c ∨ (o ∈ List.range' h.size n ∧ c = ⟨1, b⟩) := by
  have hlt := lt_size_of_cell hc
  rw [size_allocs] at hlt
  rcases Nat.lt_or_ge o h.size with ho | ho
  · rw [cell, cells_allocs, List.getElem?_append_left ho] at hc
    exact Or.inl hc
  · have hmem : o ∈ List.range' h.size n := List.mem_range'_1.mpr ⟨ho, hlt⟩
    rw [cell_allocs_of_mem b hmem] at hc
    exact Or.inr ⟨hmem, (Option.some.inj hc).symm⟩

theorem count_of_cell (hc : h.cell o = some c) : h.count o = c.count := by rw [count, hc]; rfl

theorem body_of_cell (hc : h.cell o = some c) : h.body o = some c.body := by rw [body, hc]; rfl

theorem live_put (hc : h.cell o = some c) (x : Option (Counted β)) :
    (h.put o x).live + 1 = h.live + (if x.isSome then 1 else 0) := by
  have ho : o < h.cells.length := lt_size_of_cell hc
  have hget : h.cells[o] = some c := (List.getElem?_eq_some_iff.mp (getElem?_of_cell hc)).2
  have hpos : 0 < h.cells.countP Option.isSome :=
    List.countP_pos_iff.mpr ⟨some c, hget ▸ List.getElem_mem ho, rfl⟩
  rw [live, put, List.countP_set ho, hget, live]
  simp only [Option.isSome_some, if_true]
  omega

end Cells

section Releasing

variable (slots : β → List Slot)

/-- One reference less for every slot, in order; those of a freed cell come next. -/
def release : List Slot → Heap β → Option (Heap β)
  | [], h => some h
  | .unwritten :: _, _ => none
  | .null :: w, h => release w h
  | .ref o :: w, h =>
    match _hc : h.cell o with
    | none => none
    | some c =>
      if c.count ≤ 1 then release (slots c.body ++ w) (h.put o none)
      else release w (h.put o (some ⟨c.count - 1, c.body⟩))
termination_by w h => (h.live, w.length)
decreasing_by
  · exact Prod.Lex.right _ (Nat.lt_succ_self _)
  · have hless : (h.put o none).live < h.live := by
      have := live_put _hc none
      simpa using Nat.lt_of_succ_le (Nat.le_of_eq this)
    exact Prod.Lex.left _ _ hless
  · have := live_put _hc (some ⟨c.count - 1, c.body⟩)
    have heq : (h.put o (some ⟨c.count - 1, c.body⟩)).live = h.live := by simpa using this
    rw [heq]
    exact Prod.Lex.right _ (Nat.lt_succ_self _)

variable {slots}

theorem release_ref {h : Heap β} {o : ℕ} {c : Counted β} (hc : h.cell o = some c) (w : List Slot) :
    release slots (.ref o :: w) h =
      if c.count ≤ 1 then release slots (slots c.body ++ w) (h.put o none)
      else release slots w (h.put o (some ⟨c.count - 1, c.body⟩)) := by
  rw [release]
  split
  next hnone => exact absurd (hc.symm.trans hnone) (by simp)
  next c' hc' =>
    obtain rfl := Option.some.inj (hc.symm.trans hc')
    rfl

end Releasing

/-! ## The balance -/

section Balance

variable (slots : β → List Slot)

/-- What a cell refers to. -/
def inside (x : Option (Counted β)) : List ℕ := x.elim [] fun c => targets (slots c.body)

/-- The references from all cells. -/
def refs (h : Heap β) : List ℕ := h.cells.flatMap (inside slots)

/-- **The counts are the numbers of references**, from `roots` and from whatever is live. -/
structure Balanced (h : Heap β) (roots : List ℕ) : Prop where
  counted : ∀ o, h.count o = roots.count o + (h.refs slots).count o
  used : ∀ o c, h.cell o = some c → 0 < c.count
  written : ∀ o c, h.cell o = some c → .unwritten ∉ slots c.body

variable {slots} {h h' g : Heap β} {o p : ℕ} {c : Counted β} {roots : List ℕ} {b : β}

theorem count_flatMap_set {α : Type} (f : α → List ℕ) (x : α) (p : ℕ) :
    ∀ {l : List α} {o : ℕ} {y : α}, l[o]? = some y →
      ((l.set o x).flatMap f).count p + (f y).count p = (l.flatMap f).count p + (f x).count p
  | y' :: l, 0, y, hy => by
    obtain rfl : y' = y := by simpa using hy
    simp only [List.set_cons_zero, List.flatMap_cons, List.count_append]
    omega
  | y' :: l, o + 1, y, hy => by
    have ih := count_flatMap_set f x p (l := l) (o := o) (y := y) (by simpa using hy)
    simp only [List.set_cons_succ, List.flatMap_cons, List.count_append]
    omega

theorem count_targets_set {l : List Slot} {i : ℕ} {s : Slot} (hs : l[i]? = some s) (s' : Slot) (p : ℕ) :
    (targets (l.set i s')).count p + (targets [s]).count p = (targets l).count p + (targets [s']).count p := by
  have hflat : ∀ l : List Slot, targets l = l.flatMap fun s => targets [s] := by
    intro l
    induction l with
    | nil => rfl
    | cons s l ih => rw [List.flatMap_cons, ← ih, ← targets_append, List.singleton_append]
  rw [hflat (l.set i s'), hflat l]
  exact count_flatMap_set _ s' p hs

theorem count_refs_put (hc : h.cell o = some c) (x : Option (Counted β)) (p : ℕ) :
    ((h.put o x).refs slots).count p + (targets (slots c.body)).count p =
      (h.refs slots).count p + (inside slots x).count p :=
  count_flatMap_set (inside slots) x p (getElem?_of_cell hc)

theorem count_put_self (ho : o < h.size) (x : Option (Counted β)) : (h.put o x).count o = x.elim 0 Counted.count := by
  rw [count, cell_put_self ho]

theorem count_put_ne (hne : o ≠ p) (x : Option (Counted β)) : (h.put o x).count p = h.count p := by
  rw [count, cell_put_ne hne, count]

theorem Balanced.perm {roots' : List ℕ} (hb : h.Balanced slots roots) (hr : ∀ o, roots.count o = roots'.count o) :
    h.Balanced slots roots' :=
  ⟨fun o => by rw [← hr, hb.counted], hb.used, hb.written⟩

theorem Balanced.exists_cell (hb : h.Balanced slots roots) (ho : o ∈ roots) : ∃ c, h.cell o = some c := by
  have hpos := List.count_pos_iff.mpr ho
  have hcount := hb.counted o
  rcases hc : h.cell o with _ | c
  · have hzero : h.count o = 0 := by rw [count, hc]; rfl
    omega
  · exact ⟨c, rfl⟩

theorem Balanced.exists_cell_of_body (hb : h.Balanced slots roots) (hp : h.cell p = some c)
    (ho : .ref o ∈ slots c.body) : ∃ c', h.cell o = some c' := by
  have hmem : o ∈ h.refs slots := by
    rw [refs, List.mem_flatMap]
    exact ⟨some c, List.mem_of_getElem? (getElem?_of_cell hp), mem_targets.mpr ho⟩
  have hpos := List.count_pos_iff.mpr hmem
  have hcount := hb.counted o
  rcases hc : h.cell o with _ | c'
  · have hzero : h.count o = 0 := by rw [count, hc]; rfl
    omega
  · exact ⟨c', rfl⟩

theorem balanced_empty : (empty : Heap β).Balanced slots [] where
  counted _ := rfl
  used _ _ hc := nomatch hc
  written _ _ hc := nomatch hc

/-- A cell that is replaced: what it referred to is now among the roots, what the new one refers to no longer is. -/
theorem Balanced.put {x : Counted β} {old new : List ℕ} (hb : h.Balanced slots old) (hc : h.cell o = some c)
    (hpos : 0 < x.count) (hwritten : .unwritten ∉ slots x.body)
    (hself : ∀ p, old.count p + (if p = o then x.count else 0) + (targets (slots c.body)).count p =
      new.count p + (if p = o then c.count else 0) + (targets (slots x.body)).count p) :
    (h.put o (some x)).Balanced slots new where
  counted p := by
    have hrefs := @count_refs_put _ slots _ _ _ hc (some x) p
    have hcount := hb.counted p
    have hs := hself p
    change _ = _ + (targets (slots x.body)).count p at hrefs
    by_cases hp : p = o
    · subst hp
      rw [count_put_self (lt_size_of_cell hc)]
      rw [count_of_cell hc] at hcount
      change x.count = _
      simp only [if_true] at hs
      omega
    · rw [count_put_ne (Ne.symm hp)]
      simp only [if_neg hp] at hs
      omega
  used p c' hc' := by
    by_cases hp : p = o
    · subst hp
      rw [cell_put_self (lt_size_of_cell hc)] at hc'
      exact Option.some.inj hc' ▸ hpos
    · rw [cell_put_ne (Ne.symm hp)] at hc'
      exact hb.used p c' hc'
  written p c' hc' := by
    by_cases hp : p = o
    · subst hp
      rw [cell_put_self (lt_size_of_cell hc)] at hc'
      exact Option.some.inj hc' ▸ hwritten
    · rw [cell_put_ne (Ne.symm hp)] at hc'
      exact hb.written p c' hc'

theorem Balanced.retain (hb : h.Balanced slots roots) (hc : h.cell o = some c) :
    (h.put o (some ⟨c.count + 1, c.body⟩)).Balanced slots (o :: roots) := by
  refine hb.put hc (Nat.succ_pos _) (hb.written o c hc) fun p => ?_
  rw [List.count_cons]
  by_cases hp : p = o
  · subst hp
    simp only [if_true, BEq.rfl]
    omega
  · simp only [if_neg hp, beq_iff_eq, if_neg (Ne.symm hp)]

theorem Balanced.putBody {old new : List ℕ} (hb : h.Balanced slots old) (hc : h.cell o = some c)
    (hwritten : .unwritten ∉ slots b)
    (hself : ∀ p, old.count p + (targets (slots c.body)).count p = new.count p + (targets (slots b)).count p) :
    (h.put o (some ⟨c.count, b⟩)).Balanced slots new := by
  refine hb.put hc (hb.used o c hc) hwritten fun p => ?_
  have hp := hself p
  simp only
  omega

theorem Balanced.alloc (hb : h.Balanced slots (targets (slots b) ++ roots)) (hwritten : .unwritten ∉ slots b) :
    (h.alloc b).Balanced slots (h.size :: roots) where
  counted p := by
    have hrefs : ((h.alloc b).refs slots).count p = (h.refs slots).count p + (targets (slots b)).count p := by
      simp [refs, Heap.alloc, inside, List.count_append]
    have hcount := hb.counted p
    rw [List.count_append] at hcount
    rw [hrefs, List.count_cons]
    by_cases hp : p = h.size
    · subst hp
      have hnone : h.count h.size = 0 := by rw [count, cell_eq_none_of_le (Nat.le_refl _)]; rfl
      rw [count_of_cell (cell_alloc_self b)]
      simp only [BEq.rfl, if_true]
      omega
    · have heq : (h.alloc b).count p = h.count p := by
        rcases Nat.lt_or_ge p h.size with hlt | hge
        · rw [count, cell_alloc_of_lt b hlt, count]
        · rw [count, cell_eq_none_of_le (by rw [size_alloc]; omega), count, cell_eq_none_of_le hge]
      rw [heq]
      simp only [beq_iff_eq, if_neg (Ne.symm hp)]
      omega
  used p c' hc' := by
    obtain hc' | ⟨-, rfl⟩ := cell_of_alloc hc'
    · exact hb.used p c' hc'
    · exact Nat.one_pos
  written p c' hc' := by
    obtain hc' | ⟨-, rfl⟩ := cell_of_alloc hc'
    · exact hb.written p c' hc'
    · exact hwritten

theorem Balanced.allocs (hb : h.Balanced slots roots) (hnone : slots b = []) (n : ℕ) :
    (h.allocs n b).Balanced slots (List.range' h.size n ++ roots) := by
  induction n generalizing h roots with
  | zero => exact hb
  | succ n ih =>
    have hnew : (h.alloc b).Balanced slots (h.size :: roots) := by
      refine Balanced.alloc ?_ ?_
      · rwa [hnone, targets_nil, List.nil_append]
      · rw [hnone]
        exact List.not_mem_nil
    refine (ih hnew).perm fun p => ?_
    simp only [List.count_append, List.count_cons, List.range'_succ, size_alloc]
    omega

theorem Balanced.free {w : List Slot} (hb : h.Balanced slots (targets (.ref o :: w) ++ roots)) (hc : h.cell o = some c)
    (hcount : c.count ≤ 1) : (h.put o none).Balanced slots (targets (slots c.body ++ w) ++ roots) where
  counted p := by
    have hrefs := @count_refs_put _ slots _ _ _ hc none p
    have hp := hb.counted p
    change _ = _ + List.count p [] at hrefs
    rw [targets_ref, List.cons_append, List.count_cons, List.count_append] at hp
    rw [targets_append, List.count_append, List.count_append]
    rw [List.count_nil] at hrefs
    by_cases heq : p = o
    · subst heq
      rw [count_put_self (lt_size_of_cell hc)]
      rw [count_of_cell hc] at hp
      change 0 = _
      simp only [BEq.rfl, if_true] at hp
      omega
    · rw [count_put_ne (Ne.symm heq)]
      simp only [beq_iff_eq, if_neg (Ne.symm heq)] at hp
      omega
  used p c' hc' := by
    by_cases hp : p = o
    · subst hp
      rw [cell_put_self (lt_size_of_cell hc)] at hc'
      exact nomatch hc'
    · rw [cell_put_ne (Ne.symm hp)] at hc'
      exact hb.used p c' hc'
  written p c' hc' := by
    by_cases hp : p = o
    · subst hp
      rw [cell_put_self (lt_size_of_cell hc)] at hc'
      exact nomatch hc'
    · rw [cell_put_ne (Ne.symm hp)] at hc'
      exact hb.written p c' hc'

theorem Balanced.lower {w : List Slot} (hb : h.Balanced slots (targets (.ref o :: w) ++ roots))
    (hc : h.cell o = some c) (hcount : ¬c.count ≤ 1) :
    (h.put o (some ⟨c.count - 1, c.body⟩)).Balanced slots (targets w ++ roots) := by
  refine hb.put hc (by change 0 < c.count - 1; omega) (hb.written o c hc) fun p => ?_
  rw [targets_ref, List.cons_append, List.count_cons]
  by_cases hp : p = o
  · subst hp
    simp only [if_true, BEq.rfl]
    omega
  · simp only [if_neg hp, beq_iff_eq, if_neg (Ne.symm hp)]

theorem put_comm (hne : o ≠ p) (x y : Option (Counted β)) : (h.put o x).put p y = (h.put p y).put o x := by
  rw [put, put, put, put, List.set_comm _ _ hne]

theorem put_put (x y : Option (Counted β)) : (h.put o x).put o y = h.put o y := by
  rw [put, put, put, List.set_set]

theorem cell_release_eq_none {w : List Slot} (hr : release slots w h = some h') (ho : h.cell o = none) :
    h'.cell o = none := by
  induction w, h using release.induct slots with
  | case1 h =>
    rw [release] at hr
    exact Option.some.inj hr ▸ ho
  | case2 w h => rw [release] at hr; exact nomatch hr
  | case3 w h ih =>
    rw [release] at hr
    exact ih hr ho
  | case4 p w h hnone =>
    rw [release] at hr
    split at hr
    next => exact nomatch hr
    next c hc => exact absurd (hnone.symm.trans hc) (by simp)
  | case5 p w h c hc hcount ih =>
    rw [release_ref hc, if_pos hcount] at hr
    have hne : p ≠ o := by
      rintro rfl
      exact absurd (ho.symm.trans hc) (by simp)
    exact ih hr (by rw [cell_put_ne hne, ho])
  | case6 p w h c hc hcount ih =>
    rw [release_ref hc, if_neg hcount] at hr
    have hne : p ≠ o := by
      rintro rfl
      exact absurd (ho.symm.trans hc) (by simp)
    exact ih hr (by rw [cell_put_ne hne, ho])

theorem body_of_put (hc : h.cell o = some c) {x : Option (Counted β)} (hx : ∀ y, x = some y → y.body = c.body)
    (hb : (h.put o x).body p = some b) : h.body p = some b := by
  by_cases hp : p = o
  · subst hp
    rw [body, cell_put_self (lt_size_of_cell hc), Option.map_eq_some_iff] at hb
    obtain ⟨y, hy, rfl⟩ := hb
    rw [hx y hy, body_of_cell hc]
  · rwa [body, cell_put_ne (Ne.symm hp)] at hb

/-- **Releasing some of the roots.**  What is still there then is as it was. -/
theorem exists_release {w : List Slot} (hb : h.Balanced slots (targets w ++ roots)) (hw : .unwritten ∉ w) :
    ∃ h', release slots w h = some h' ∧ h'.Balanced slots roots ∧ h'.size = h.size ∧
      ∀ o b, h'.body o = some b → h.body o = some b := by
  induction w, h using release.induct slots with
  | case1 h => exact ⟨h, release.eq_1 .., hb, rfl, fun _ _ h => h⟩
  | case2 w h => exact absurd List.mem_cons_self hw
  | case3 w h ih =>
    obtain ⟨h', hr, hrest⟩ := ih hb fun hm => hw (List.mem_cons_of_mem _ hm)
    exact ⟨h', by rw [release, hr], hrest⟩
  | case4 o w h hnone =>
    obtain ⟨c, hc⟩ := hb.exists_cell List.mem_cons_self
    exact absurd (hnone ▸ hc) (by simp)
  | case5 o w h c hc hcount ih =>
    have hnot : .unwritten ∉ slots c.body ++ w := fun hm =>
      (List.mem_append.mp hm).elim (hb.written o c hc) fun hm => hw (List.mem_cons_of_mem _ hm)
    obtain ⟨h', hr, hbal, hsize, hkept⟩ := ih (hb.free hc hcount) hnot
    refine ⟨h', ?_, hbal, by rw [hsize, size_put], fun p b hp => ?_⟩
    · rw [release_ref hc, if_pos hcount, hr]
    · exact body_of_put (x := none) hc (fun y hy => nomatch hy) (hkept p b hp)
  | case6 o w h c hc hcount ih =>
    obtain ⟨h', hr, hbal, hsize, hkept⟩ := ih (hb.lower hc hcount) fun hm => hw (List.mem_cons_of_mem _ hm)
    refine ⟨h', ?_, hbal, by rw [hsize, size_put], fun p b hp => ?_⟩
    · rw [release_ref hc, if_neg hcount, hr]
    · refine body_of_put hc (fun y hy => ?_) (hkept p b hp)
      rw [← Option.some.inj hy]

/-- **What is inside a cell that survives does not matter.** -/
theorem release_putBody {w : List Slot} (hr : release slots w h = some h') (hg : h.putBody o b = some g)
    (ho : ∃ c, h'.cell o = some c) : ∃ g', h'.putBody o b = some g' ∧ release slots w g = some g' := by
  induction w, h using release.induct slots generalizing g with
  | case1 h =>
    rw [release] at hr ⊢
    exact ⟨g, Option.some.inj hr ▸ hg, rfl⟩
  | case2 w h => rw [release] at hr; exact nomatch hr
  | case3 w h ih =>
    rw [release] at hr ⊢
    exact ih hr hg
  | case4 p w h hnone =>
    rw [release] at hr
    split at hr
    next => exact nomatch hr
    next c hc => exact absurd (hnone.symm.trans hc) (by simp)
  | case5 p w h c hc hcount ih =>
    rw [release_ref hc, if_pos hcount] at hr
    obtain ⟨d, hd, rfl⟩ := Option.map_eq_some_iff.mp hg
    have hne : o ≠ p := by
      rintro rfl
      obtain ⟨c', hc'⟩ := ho
      exact absurd (cell_release_eq_none hr (cell_put_self (lt_size_of_cell hc) none)) (by simp [hc'])
    rw [release_ref (c := c) (by rw [cell_put_ne hne, hc]), if_pos hcount]
    refine ih hr ?_
    rw [putBody, cell_put_ne (Ne.symm hne), hd, Option.map_some, put_comm (Ne.symm hne)]
  | case6 p w h c hc hcount ih =>
    rw [release_ref hc, if_neg hcount] at hr
    obtain ⟨d, hd, rfl⟩ := Option.map_eq_some_iff.mp hg
    by_cases hne : o = p
    · subst hne
      obtain rfl := Option.some.inj (hc.symm.trans hd)
      rw [release_ref (c := ⟨c.count, b⟩) (cell_put_self (lt_size_of_cell hc) _), if_neg hcount]
      refine ih hr ?_
      rw [putBody, cell_put_self (lt_size_of_cell hc), Option.map_some, put_put, put_put]
    · rw [release_ref (c := c) (by rw [cell_put_ne hne, hc]), if_neg hcount]
      refine ih hr ?_
      rw [putBody, cell_put_ne (Ne.symm hne), hd, Option.map_some, put_comm (Ne.symm hne)]

theorem putBody_putBody (hg : h.putBody o b = some g) (b' : β) : g.putBody o b' = h.putBody o b' := by
  obtain ⟨c, hc, rfl⟩ := Option.map_eq_some_iff.mp hg
  rw [putBody, putBody, cell_put_self (lt_size_of_cell hc), hc, Option.map_some, Option.map_some, put_put]

theorem retain_putBody (hr : h.retain p = some h') (hg : h.putBody o b = some g) :
    ∃ g', g.retain p = some g' ∧ h'.putBody o b = some g' := by
  obtain ⟨c, hc, rfl⟩ := Option.map_eq_some_iff.mp hr
  obtain ⟨d, hd, rfl⟩ := Option.map_eq_some_iff.mp hg
  by_cases hne : o = p
  · subst hne
    obtain rfl := Option.some.inj (hc.symm.trans hd)
    refine ⟨_, by rw [retain, cell_put_self (lt_size_of_cell hc), Option.map_some], ?_⟩
    rw [putBody, cell_put_self (lt_size_of_cell hc), Option.map_some, put_put, put_put]
  · refine ⟨_, by rw [retain, cell_put_ne hne, hc, Option.map_some], ?_⟩
    rw [putBody, cell_put_ne (Ne.symm hne), hd, Option.map_some, put_comm (Ne.symm hne)]

end Balance

end Heap

end Lib
