import VelocityMcp.Lib.RefCount
import Mathlib.Algebra.Group.Nat.Defs
import Mathlib.Data.Int.Notation
import Mathlib.Data.List.Basic
import Mathlib.Data.Nat.Basic
import Mathlib.Logic.Function.Basic

/-!
# Interp.Arrays — the arrays of the interpreter (`interp_core/interp.c`)

`arrays_are_lists`: they hold what lists would, as long as no `array_set` comes to a slot that the growth of
`array_push` has left unwritten.
-/

namespace VelocityMcp.Interp.Arrays

open Lib

/-! ## The code -/

/-- `ArrayVal`; the capacity is the number of slots. -/
structure ArrayVal where
  items : List Slot
  len : ℕ
deriving DecidableEq

/-- What a value holds.  Of a value that is neither null nor an array only the references count (those of a map). -/
inductive Body where
  | null
  | other (values : List ℕ)
  | array (a : ArrayVal)
deriving DecidableEq

/-- What `value_free` releases. -/
def Body.slots : Body → List Slot
  | null => []
  | other values => values.map .ref
  | array a => a.items.take a.len

abbrev Values := Heap Body

def valueDeref (s : Slot) (h : Values) : Option Values := h.release Body.slots [s]

section Operations

variable (room : ℕ)

/-- `realloc` has room for so many slots, and an `int` for their number. -/
def Allocates (n : ℕ) : Prop := n ≤ room ∧ n < 2 ^ 31

instance (n : ℕ) : Decidable (Allocates room n) := inferInstanceAs (Decidable (_ ∧ _))

def newCap (cap : ℕ) : ℕ := if cap = 0 then 8 else cap * 2

theorem lt_newCap (cap : ℕ) : cap < newCap cap := by
  unfold newCap
  split_ifs <;> omega

/-- The growth of `array_push`. -/
def growOnce (v : ArrayVal) : Option (List Slot) :=
  if v.len ≥ v.items.length then
    if Allocates room (newCap v.items.length) then
      some (v.items ++ List.replicate (newCap v.items.length - v.items.length) .unwritten)
    else none
  else some v.items

/-- `array_push`, on a heap of values with counts. -/
def arrayPush (a item : ℕ) (h : Values) : Option Values :=
  match h.body a with
  | some (.array v) => do
    let items ← growOnce room v
    let h ← h.retain item
    h.putBody a (.array ⟨items.set v.len (.ref item), v.len + 1⟩)
  | some _ => some h
  | none => none

def arrayGet (a : ℕ) (idx : ℤ) (h : Values) : Option Slot :=
  match h.body a with
  | some (.array v) =>
    if idx < 0 ∨ idx ≥ v.len then some .null
    else
      match v.items[idx.toNat]? with
      | some .unwritten => none
      | s => s
  | some _ => some .null
  | none => none

/-- The growth of `array_set`: slots from `len` on are cleared. -/
def growTo (idx len : ℕ) (items : List Slot) : Option (List Slot) :=
  if idx ≥ items.length then
    if Allocates room (newCap items.length) then
      growTo idx len (items.take len ++ List.replicate (newCap items.length - (items.take len).length) .null)
    else none
  else some items
termination_by idx + 1 - items.length
decreasing_by
  have := lt_newCap items.length
  simp only [List.length_append, List.length_replicate, List.length_take]
  omega

/-- The loop that fills slots from `i` on, where there is nothing. -/
def fillNulls : ℕ → ℕ → List Slot → Values → Option (List Slot × Values)
  | _, 0, items, h => some (items, h)
  | i, n + 1, items, h =>
    match items[i]? with
    | some .null => fillNulls (i + 1) n (items.set i (.ref h.size)) (h.alloc .null)
    | some (.ref _) => fillNulls (i + 1) n items h
    | _ => none

/-- `if (idx >= a->len)`: what is between is filled, and the length reaches behind `idx`. -/
def extendTo (idx len : ℕ) (items : List Slot) (h : Values) : Option (ArrayVal × Values) :=
  if idx ≥ len then (fillNulls len (idx - len) items h).map fun r => (⟨r.1, idx + 1⟩, r.2)
  else some (⟨items, len⟩, h)

/-- `value_deref(a->items[idx]); a->items[idx] = value_ref(val)`. -/
def overwrite (a idx val : ℕ) (v : ArrayVal) (h : Values) : Option Values := do
  let old ← v.items[idx]?
  let h ← valueDeref old h
  let h ← h.retain val
  h.putBody a (.array ⟨v.items.set idx (.ref val), v.len⟩)

def arraySet (a : ℕ) (idx : ℤ) (val : ℕ) (h : Values) : Option Values :=
  match h.body a with
  | some (.array v) =>
    if idx < 0 then some h
    else do
      let idx := idx.toNat
      let items ← growTo room idx v.len v.items
      let (v, h) ← extendTo idx v.len items h
      let h ← h.putBody a (.array v)
      overwrite a idx val v h
  | some _ => some h
  | none => none

/-- `builtin_pop`: the reference goes over to the caller. -/
def builtinPop (a : ℕ) (h : Values) : Option (Values × Slot) :=
  match h.body a with
  | some (.array v) =>
    if v.len = 0 then some (h.alloc .null, .ref h.size)
    else do
      let last ← v.items[v.len - 1]?
      if last = .unwritten then none
      else
        let h ← h.putBody a (.array ⟨v.items.set (v.len - 1) .null, v.len - 1⟩)
        some (h, last)
  | some _ => some (h.alloc .null, .ref h.size)
  | none => none

/-! ## Runs -/

/-- The values, and the references of the code that calls the operations (variables, intermediate results). -/
structure World where
  heap : Values
  held : List ℕ

/-- No values, and no references. -/
def World.empty : World := ⟨.empty, []⟩

/-- A caller's operation; objects are named by the order in which they were made. -/
inductive Op where
  /-- A new array. -/
  | array
  /-- A new null. -/
  | null
  /-- A new value of any other type. -/
  | other (values : List ℕ)
  /-- `value_ref`. -/
  | keep (o : ℕ)
  /-- `value_deref`. -/
  | drop (o : ℕ)
  | push (a item : ℕ)
  | set (a : ℕ) (idx : ℤ) (val : ℕ)
  | get (a : ℕ) (idx : ℤ)
  | pop (a : ℕ)
deriving DecidableEq

def retainAll : List ℕ → Values → Option Values
  | [], h => some h
  | o :: os, h => h.retain o >>= retainAll os

def World.new (b : Body) (w : World) : World := ⟨w.heap.alloc b, w.heap.size :: w.held⟩

def step : Op → World → Option World
  | .array, w => some (w.new (.array ⟨[], 0⟩))
  | .null, w => some (w.new .null)
  | .other values, w => (retainAll values w.heap).map fun h => (World.mk h w.held).new (.other values)
  | .keep o, w => (w.heap.retain o).map fun h => ⟨h, o :: w.held⟩
  | .drop o, w => (valueDeref (.ref o) w.heap).map fun h => ⟨h, w.held.erase o⟩
  | .push a item, w => (arrayPush room a item w.heap).map fun h => ⟨h, w.held⟩
  | .set a idx val, w => (arraySet room a idx val w.heap).map fun h => ⟨h, w.held⟩
  | .get a idx, w => (arrayGet a idx w.heap).map fun _ => w
  | .pop a, w => (builtinPop a w.heap).map fun r => ⟨r.1, targets [r.2] ++ w.held⟩

/-- Operations one after the other, with what the code that calls them does with its references. -/
def run : List Op → World → Option World
  | [], w => some w
  | op :: ops, w => step room op w >>= run ops

/-- A condition holds before every step. -/
def Along (P : World → Op → Prop) : List Op → World → Prop
  | [], _ => True
  | op :: ops, w => P w op ∧ ∀ w', step room op w = some w' → Along P ops w'

end Operations

/-- What the callers see to: the values are there; `array_set` is called with references to the array and the value
(`AST_ASSIGN` has evaluated both); only one's own references are given up. -/
def Called (w : World) : Op → Prop
  | .array | .null => True
  | .other values => ∀ o ∈ values, ∃ c, w.heap.cell o = some c
  | .keep o => ∃ c, w.heap.cell o = some c
  | .drop o => o ∈ w.held
  | .push a item => (∃ c, w.heap.cell a = some c) ∧ ∃ c, w.heap.cell item = some c
  | .set a _ val => a ∈ w.held ∧ val ∈ w.held
  | .get a _ | .pop a => ∃ c, w.heap.cell a = some c

/-- Memory for twice as many slots (`realloc` doubles). -/
def Affords (room n : ℕ) : Prop := Allocates room (max 8 (2 * n))

instance (room n : ℕ) : Decidable (Affords room n) := inferInstanceAs (Decidable (Allocates _ _))

/-- The array stays below the memory bound. -/
def Fits (room : ℕ) (w : World) : Op → Prop
  | .push a _ => ∀ v, w.heap.body a = some (.array v) → Affords room v.len
  | .set _ idx _ => Affords room idx.toNat
  | _ => True

/-- An `array_set` at or behind the end either grows the array or finds the slots up to there written. -/
def FindsWritten (w : World) : Op → Prop
  | .set a idx _ => ∀ v, w.heap.body a = some (.array v) → idx < v.items.length →
      ∀ j, v.len ≤ j → (j : ℤ) ≤ idx → v.items[j]? ≠ some .unwritten
  | _ => True

/-! ## Lists -/

/-- What a list padded with null holds. -/
inductive Item where
  | pad
  | value (o : ℕ)
deriving DecidableEq

/-- The item at `i`, null where there is none. -/
def readPadded (l : List Item) (i : ℤ) : Item := if i < 0 then .pad else l[i.toNat]?.getD .pad

/-- The list is padded up to `i`. -/
def setPadded (l : List Item) (i : ℤ) (x : Item) : List Item :=
  if i < 0 then l else (l ++ List.replicate (i.toNat + 1 - l.length) Item.pad).set i.toNat x

/-- The lists that the arrays should be, by address. -/
abbrev Lists := ℕ → List Item

def onLists : Op → Lists → Lists
  | .push a item, L => Function.update L a (L a ++ [.value item])
  | .set a idx val, L => Function.update L a (setPadded (L a) idx (.value val))
  | .pop a, L => Function.update L a (L a).dropLast
  | _, L => L

/-- The lists that the operations would make of arrays without a bound. -/
def listsOf (ops : List Op) : Lists := ops.foldl (fun L op => onLists op L) fun _ => []

/-- A pointer stands for an item: NULL and a null value for the padding. -/
def Shows (h : Values) : Slot → Item → Prop
  | .null, .pad => True
  | .ref o, .pad => h.body o = some .null
  | .ref o, .value o' => o = o'
  | _, _ => False

/-- Every array is its list: `array_get` gives what the list has, and every slot below the length is a value that is
there. -/
def AreLists (h : Values) (L : Lists) : Prop :=
  ∀ a v, h.body a = some (.array v) →
    v.len = (L a).length ∧
    (∀ j, j < v.len → ∃ o c, v.items[j]? = some (.ref o) ∧ h.cell o = some c) ∧
    ∀ i, ∃ s, arrayGet a i h = some s ∧ Shows h s (readPadded (L a) i)

/-! ## Slots -/

section Slots

variable {room idx len : ℕ} {items : List Slot} {h h' : Values} {v : ArrayVal} {l : List Item}

theorem allocates_newCap {n : ℕ} (hroom : Affords room n) {cap : ℕ} (hle : cap ≤ n) :
    Allocates room (newCap cap) := by
  unfold Affords Allocates at *
  unfold newCap
  split_ifs <;> omega

theorem exists_growTo (hroom : Affords room idx) (hlen : len ≤ items.length) :
    ∃ items', growTo room idx len items = some items' ∧ idx < items'.length ∧
      (items' = items ∨ (items.length ≤ idx ∧ ∃ k, items' = items.take len ++ List.replicate k .null)) := by
  induction items using growTo.induct room idx len with
  | case1 items hge halloc ih =>
    rw [growTo, if_pos hge, if_pos halloc]
    have htake : (items.take len).length = len := List.length_take_of_le hlen
    obtain ⟨items', hgrow, hlt, hcases⟩ := ih (by
      rw [List.length_append, htake]
      omega)
    refine ⟨items', hgrow, hlt, Or.inr ⟨hge, ?_⟩⟩
    obtain rfl | ⟨-, k, rfl⟩ := hcases
    · exact ⟨_, rfl⟩
    · refine ⟨k, ?_⟩
      rw [List.take_append_of_le_length (Nat.le_of_eq htake.symm), List.take_take, Nat.min_self]
  | case2 items hge halloc => exact absurd (allocates_newCap hroom hge) halloc
  | case3 items hge =>
    rw [growTo, if_neg hge]
    exact ⟨items, rfl, Nat.lt_of_not_le hge, Or.inl rfl⟩

theorem fillNulls_eq (i n : ℕ) (hnull : ∀ j, i ≤ j → j < i + n → items[j]? = some .null) :
    fillNulls i n items h =
      some (items.take i ++ (List.range' h.size n).map .ref ++ items.drop (i + n), h.allocs n .null) := by
  induction n generalizing i items h with
  | zero => simp [fillNulls, Heap.allocs]
  | succ n ih =>
    have hi := hnull i (Nat.le_refl i) (by omega)
    have hlt : i < items.length := (List.getElem?_eq_some_iff.mp hi).1
    rw [fillNulls, hi]
    simp only
    rw [ih (i + 1) fun j hij hj => by
      rw [List.getElem?_set_ne (by omega)]
      exact hnull j (by omega) (by omega)]
    rw [Heap.allocs, Heap.size_alloc, List.range'_succ, List.map_cons, List.drop_set_of_lt (by omega),
      List.take_succ_eq_append_getElem (by rw [List.length_set]; exact hlt), List.getElem_set_self,
      List.take_set_of_le (Nat.le_refl i)]
    simp [Nat.add_comm, Nat.add_left_comm]

end Slots

/-! ## What every step keeps -/

/-- An array holds its list, and no references behind its end. -/
structure Holds (h : Values) (v : ArrayVal) (l : List Item) : Prop where
  length : v.len = l.length
  le : v.len ≤ v.items.length
  shows : ∀ (j : ℕ) (x : Item), l[j]? = some x → ∃ o, v.items[j]? = some (Slot.ref o) ∧ Shows h (.ref o) x
  beyond : ∀ j : ℕ, v.len ≤ j → ∀ o, v.items[j]? ≠ some (Slot.ref o)

/-- The heap, where everything but one array may be looked at. -/
structure GoodBut (except : Option ℕ) (h : Values) (held : List ℕ) (L : Lists) : Prop where
  balanced : h.Balanced Body.slots held
  holds : ∀ a v, some a ≠ except → h.body a = some (.array v) → Holds h v (L a)
  fresh : ∀ o, h.size ≤ o → L o = []

abbrev Good (h : Values) (held : List ℕ) (L : Lists) : Prop := GoodBut none h held L

/-- Nothing changes but counts, and what is freed or new. -/
structure Keeps (h h' : Values) : Prop where
  size : h.size ≤ h'.size
  arrays : ∀ a v, h'.body a = some (.array v) → h.body a = some (.array v)
  nulls : ∀ o b, h.body o = some .null → h'.body o = some b → b = .null

section Invariant

variable {room : ℕ} {h h' : Values} {held held' : List ℕ} {L : Lists} {except : Option ℕ} {a o : ℕ} {v : ArrayVal}
  {l : List Item} {c : Counted Body}

theorem Holds.exists_ref (hh : Holds h v l) {j : ℕ} (hj : j < v.len) : ∃ o, v.items[j]? = some (.ref o) := by
  have hlt : j < l.length := hh.length ▸ hj
  exact (hh.shows j _ (List.getElem?_eq_getElem hlt)).imp fun _ ho => ho.1

theorem Holds.written (hh : Holds h v l) : .unwritten ∉ Body.slots (.array v) := by
  rw [Body.slots, List.mem_iff_getElem?]
  rintro ⟨j, hj⟩
  rw [List.getElem?_take] at hj
  split_ifs at hj with hlt
  obtain ⟨o, ho⟩ := hh.exists_ref hlt
  exact absurd (ho.symm.trans hj) (by simp)

theorem Keeps.of_bodies (hsize : h'.size = h.size) (hk : ∀ o b, h'.body o = some b → h.body o = some b) :
    Keeps h h' where
  size := Nat.le_of_eq hsize.symm
  arrays a _ hv := hk a _ hv
  nulls o b ho hb := Option.some.inj ((hk o b hb).symm.trans ho)

theorem body_retain (hr : h.retain o = some h') (a : ℕ) : h'.body a = h.body a := by
  obtain ⟨c, hc, rfl⟩ := Option.map_eq_some_iff.mp hr
  by_cases hne : o = a
  · subst hne
    rw [Heap.body, Heap.cell_put_self (Heap.lt_size_of_cell hc), Heap.body, hc]
    rfl
  · rw [Heap.body, Heap.cell_put_ne hne, Heap.body]

theorem keeps_retain (hr : h.retain o = some h') : Keeps h h' := by
  refine Keeps.of_bodies ?_ fun p b hp => (body_retain hr p).symm.trans hp
  obtain ⟨c, -, rfl⟩ := Option.map_eq_some_iff.mp hr
  exact h.size_put _

theorem Keeps.of_cells (hsize : h.size ≤ h'.size) (hold : ∀ o c, h.cell o = some c → h'.cell o = some c)
    (hnew : ∀ o c, h'.cell o = some c → h.cell o = some c ∨ ∀ v, c.body ≠ .array v) : Keeps h h' where
  size := hsize
  arrays a v hv := by
    obtain ⟨c, hc, hcv⟩ := Option.map_eq_some_iff.mp hv
    obtain hc | hne := hnew a c hc
    · exact hcv ▸ Heap.body_of_cell hc
    · exact absurd hcv (hne v)
  nulls o b ho hb := by
    obtain ⟨c, hc, hcn⟩ := Option.map_eq_some_iff.mp ho
    rw [Heap.body, hold o c hc] at hb
    exact (Option.some.inj hb).symm.trans hcn

theorem keeps_allocs (n : ℕ) : Keeps h (h.allocs n .null) := by
  refine .of_cells ?_ (fun o c hc => Heap.cell_allocs_of_cell n .null hc) fun o c hc => ?_
  · rw [Heap.size_allocs]
    omega
  · exact (Heap.cell_of_allocs hc).imp_right fun hnew => by rw [hnew.2]; simp

theorem Keeps.trans_retain {h'' : Values} (hk : Keeps h h') (hr : h'.retain o = some h'') : Keeps h h'' where
  size := Nat.le_trans hk.size (keeps_retain hr).size
  arrays a v hv := hk.arrays a v ((body_retain hr a).symm.trans hv)
  nulls p b hp hb := hk.nulls p b hp ((body_retain hr p).symm.trans hb)

theorem Shows.keep (hk : Keeps h h') (ho : ∃ c, h'.cell o = some c) {x : Item} (hs : Shows h (.ref o) x) :
    Shows h' (.ref o) x := by
  cases x with
  | value o' => exact hs
  | pad =>
    obtain ⟨c, hc⟩ := ho
    have hbody := Heap.body_of_cell hc
    rw [hk.nulls o _ hs hbody] at hbody
    exact hbody

theorem GoodBut.keep (hg : GoodBut except h held L) (hk : Keeps h h') (hb : h'.Balanced Body.slots held') :
    GoodBut except h' held' L where
  balanced := hb
  holds a v hne hv := by
    have hh := hg.holds a v hne (hk.arrays a v hv)
    obtain ⟨c, hc, hcv⟩ := Option.map_eq_some_iff.mp hv
    refine ⟨hh.length, hh.le, fun j x hx => ?_, hh.beyond⟩
    obtain ⟨o, ho, hs⟩ := hh.shows j x hx
    have hj : j < v.len := hh.length ▸ (List.getElem?_eq_some_iff.mp hx).1
    refine ⟨o, ho, hs.keep hk (hb.exists_cell_of_body hc ?_)⟩
    rw [hcv, Body.slots]
    exact List.mem_of_getElem? (i := j) (by rw [List.getElem?_take, if_pos hj, ho])
  fresh o ho := hg.fresh o (Nat.le_trans hk.size ho)

theorem GoodBut.weaken (hg : Good h held L) (except : Option ℕ) : GoodBut except h held L :=
  ⟨hg.balanced, fun a v _ hv => hg.holds a v (by simp) hv, hg.fresh⟩

theorem Shows.putArray {v' : ArrayVal} (hc : h.cell a = some c) (hv : c.body = .array v) {s : Slot} {x : Item}
    (hs : Shows h s x) : Shows (h.put a (some ⟨c.count, .array v'⟩)) s x := by
  cases s with
  | unwritten => cases x <;> exact hs
  | null => cases x <;> exact hs
  | ref o =>
    cases x with
    | value o' => exact hs
    | pad =>
      have hne : a ≠ o := by
        rintro rfl
        have hnull : c.body = Body.null := Option.some.inj ((Heap.body_of_cell hc).symm.trans hs)
        exact absurd (hv.symm.trans hnull) (by simp)
      change Heap.body _ o = some Body.null
      rw [Heap.body, Heap.cell_put_ne hne]
      exact hs

theorem Holds.putArray {a' : ℕ} {v₀ v' : ArrayVal} (hc : h.cell a' = some c) (hv : c.body = .array v₀)
    (hh : Holds h v l) : Holds (h.put a' (some ⟨c.count, .array v'⟩)) v l :=
  ⟨hh.length, hh.le, fun j x hx => (hh.shows j x hx).imp fun _ ho => ⟨ho.1, ho.2.putArray hc hv⟩, hh.beyond⟩

theorem GoodBut.putArray {old : List ℕ} {v' : ArrayVal} (hg : GoodBut (some a) h old L) (hc : h.cell a = some c)
    (hv : c.body = .array v) (hwritten : .unwritten ∉ Body.slots (.array v'))
    (hself : ∀ p, old.count p + (targets (v.items.take v.len)).count p =
      held.count p + (targets (v'.items.take v'.len)).count p) :
    GoodBut (some a) (h.put a (some ⟨c.count, .array v'⟩)) held L where
  balanced := hg.balanced.putBody hc hwritten fun p => by rw [hv]; exact hself p
  holds a' v₁ hne hv₁ := by
    have hne' : a ≠ a' := fun heq => hne (by rw [heq])
    rw [Heap.body, Heap.cell_put_ne hne'] at hv₁
    exact (hg.holds a' v₁ hne hv₁).putArray hc hv
  fresh o ho := hg.fresh o (by rwa [Heap.size_put] at ho)

theorem GoodBut.reveal (hg : GoodBut (some a) h held L) (hv : h.body a = some (.array v)) (hh : Holds h v l) :
    Good h held (Function.update L a l) where
  balanced := hg.balanced
  holds a' v₁ _ hv₁ := by
    by_cases hne : a' = a
    · subst hne
      obtain rfl : v = v₁ := by simpa using hv.symm.trans hv₁
      rwa [Function.update_self]
    · rw [Function.update_of_ne hne]
      exact hg.holds a' v₁ (by simpa using hne) hv₁
  fresh o ho := by
    obtain ⟨c, hc, -⟩ := Option.map_eq_some_iff.mp hv
    have hlt := Heap.lt_size_of_cell hc
    rw [Function.update_of_ne (by omega)]
    exact hg.fresh o ho

theorem Good.setArray {old : List ℕ} {v' : ArrayVal} (hg : GoodBut (some a) h old L) (hc : h.cell a = some c)
    (hv : c.body = .array v) (hh : Holds h v' l)
    (hself : ∀ p, old.count p + (targets (v.items.take v.len)).count p =
      held.count p + (targets (v'.items.take v'.len)).count p) :
    Good (h.put a (some ⟨c.count, .array v'⟩)) held (Function.update L a l) :=
  (hg.putArray hc hv hh.written hself).reveal
    (by rw [Heap.body, Heap.cell_put_self (Heap.lt_size_of_cell hc), Option.map_some]) (hh.putArray hc hv)

theorem GoodBut.update_of_ne (hg : Good h held L) (hc : h.cell a = some c) (hv : ∀ v, c.body ≠ .array v)
    (l : List Item) : Good h held (Function.update L a l) where
  balanced := hg.balanced
  holds a' v₁ hne hv₁ := by
    have hne' : a' ≠ a := by
      rintro rfl
      exact hv v₁ (Option.some.inj ((Heap.body_of_cell hc).symm.trans hv₁))
    rw [Function.update_of_ne hne']
    exact hg.holds a' v₁ hne hv₁
  fresh o ho := by
    have hlt := Heap.lt_size_of_cell hc
    rw [Function.update_of_ne (by omega)]
    exact hg.fresh o ho

/-! ## Lists in slots -/

theorem Holds.append (hh : Holds h v l) {items : List Slot} (os : List ℕ) (val : ℕ)
    (htake : items.take v.len = v.items.take v.len) (hnull : ∀ o ∈ os, h.body o = some .null)
    (hlt : v.len + os.length < items.length)
    (hbeyond : ∀ j, v.len + os.length < j → ∀ o, items[j]? ≠ some (Slot.ref o)) :
    Holds h ⟨items.take v.len ++ os.map .ref ++ .ref val :: items.drop (v.len + os.length + 1), v.len + os.length + 1⟩
      (l ++ List.replicate os.length .pad ++ [.value val]) where
  length := by simp [hh.length, Nat.add_assoc]
  le := by
    simp only [List.length_append, List.length_take, List.length_map, List.length_cons, List.length_drop]
    omega
  shows j x hx := by
    have hlen : (items.take v.len).length = v.len := by rw [List.length_take]; omega
    simp only [List.getElem?_append, List.length_append, List.length_replicate, List.length_map, hlen] at hx ⊢
    rw [← hh.length] at hx
    split_ifs at hx ⊢ with h1 h2
    · obtain ⟨o, ho, hs⟩ := hh.shows j x hx
      refine ⟨o, ?_, hs⟩
      rw [htake, List.getElem?_take, if_pos h2, ho]
    · have hj : j - v.len < os.length := by omega
      rw [List.getElem?_replicate, if_pos hj, Option.some.injEq] at hx
      subst hx
      refine ⟨_, by rw [List.getElem?_map, List.getElem?_eq_getElem hj]; rfl, hnull _ (List.getElem_mem hj)⟩
    · obtain ⟨hzero, rfl⟩ : j - (v.len + os.length) = 0 ∧ .value val = x := by
        simpa [List.getElem?_singleton] using hx
      exact ⟨val, by rw [hzero]; rfl, rfl⟩
  beyond j hj o := by
    change v.len + os.length + 1 ≤ j at hj
    have hlen : (items.take v.len).length = v.len := by rw [List.length_take]; omega
    simp only [List.getElem?_append, List.length_append, List.length_map, hlen]
    rw [if_neg (by omega), show j - (v.len + os.length) = j - (v.len + os.length + 1) + 1 by omega,
      List.getElem?_cons_succ, List.getElem?_drop,
      show v.len + os.length + 1 + (j - (v.len + os.length + 1)) = j by omega]
    exact hbeyond j (by omega) o

theorem Holds.set (hh : Holds h v l) {i : ℕ} (hi : i < v.len) (val : ℕ)
    (hshows : ∀ j o x, j < v.len → j ≠ i → v.items[j]? = some (.ref o) → Shows h (.ref o) x → Shows h' (.ref o) x) :
    Holds h' ⟨v.items.set i (.ref val), v.len⟩ (l.set i (.value val)) where
  length := by rw [List.length_set]; exact hh.length
  le := by rw [List.length_set]; exact hh.le
  shows j x hx := by
    rw [List.getElem?_set] at hx ⊢
    split_ifs at hx ⊢ with h1 h2 h3
    · exact ⟨val, rfl, Option.some.inj hx ▸ rfl⟩
    · exact absurd (Nat.lt_of_lt_of_le hi hh.le) h2
    · obtain ⟨o, ho, hs⟩ := hh.shows j x hx
      have hj : j < v.len := hh.length ▸ (List.getElem?_eq_some_iff.mp hx).1
      exact ⟨o, ho, hshows j o x hj (Ne.symm h1) ho hs⟩
  beyond j hj o := by
    change v.len ≤ j at hj
    rw [List.getElem?_set_ne (by omega)]
    exact hh.beyond j hj o

theorem Holds.pop (hh : Holds h v l) (hpos : 0 < v.len) :
    Holds h ⟨v.items.set (v.len - 1) .null, v.len - 1⟩ l.dropLast where
  length := by rw [List.length_dropLast, ← hh.length]
  le := by
    rw [List.length_set]
    exact Nat.le_trans (Nat.sub_le _ _) hh.le
  shows j x hx := by
    rw [List.getElem?_dropLast, ← hh.length] at hx
    split_ifs at hx with hj
    rw [List.getElem?_set_ne (by omega)]
    exact hh.shows j x hx
  beyond j hj o := by
    rw [List.getElem?_set]
    split_ifs with h1 h2
    · simp
    · simp
    · exact hh.beyond j (by simp only at hj; omega) o

/-! ## Steps -/

theorem cell_of_body {b : Body} (hb : h.body a = some b) : ∃ c, h.cell a = some c ∧ c.body = b :=
  Option.map_eq_some_iff.mp hb

theorem array_or_not (hc : ∃ c, h.cell a = some c) :
    (∃ c v, h.cell a = some c ∧ c.body = .array v) ∨ (∃ c, h.cell a = some c ∧ ∀ v, c.body ≠ .array v) := by
  obtain ⟨c, hc⟩ := hc
  rcases hb : c.body with _ | values | v
  · exact Or.inr ⟨c, hc, by simp [hb]⟩
  · exact Or.inr ⟨c, hc, by simp [hb]⟩
  · exact Or.inl ⟨c, v, hc, hb⟩

theorem exists_growOnce (hroom : Affords room v.len) (hh : Holds h v l) :
    ∃ items, growOnce room v = some items ∧ v.len < items.length ∧
      items.take v.len = v.items.take v.len ∧ ∀ j, v.len < j → ∀ o, items[j]? ≠ some (Slot.ref o) := by
  unfold growOnce
  split_ifs with hge halloc
  · have heq : v.len = v.items.length := Nat.le_antisymm hh.le hge
    have hlt := lt_newCap v.items.length
    refine ⟨_, rfl, ?_, ?_, fun j hj o => ?_⟩
    · rw [List.length_append, List.length_replicate]
      omega
    · rw [List.take_append_of_le_length hh.le]
    · rw [List.getElem?_append_right (by omega), List.getElem?_replicate]
      split_ifs <;> simp
  · exact absurd (allocates_newCap hroom hge) halloc
  · exact ⟨_, rfl, Nat.lt_of_not_le hge, rfl, fun j hj => hh.beyond j (Nat.le_of_lt hj)⟩

theorem Good.retain (hg : GoodBut except h held L) (ho : ∃ c, h.cell o = some c) :
    ∃ h', h.retain o = some h' ∧ GoodBut except h' (o :: held) L := by
  obtain ⟨c, hc⟩ := ho
  have hr : h.retain o = some (h.put o (some ⟨c.count + 1, c.body⟩)) := by rw [Heap.retain, hc, Option.map_some]
  exact ⟨_, hr, hg.keep (keeps_retain hr) (hg.balanced.retain hc)⟩

theorem targets_take_append {items : List Slot} {os : List ℕ} {val : ℕ} (hlt : v.len ≤ items.length)
    (htake : items.take v.len = v.items.take v.len) (rest : List Slot) :
    targets ((items.take v.len ++ os.map Slot.ref ++ Slot.ref val :: rest).take (v.len + os.length + 1)) =
      targets (v.items.take v.len) ++ os ++ [val] := by
  have hlen : (items.take v.len ++ os.map Slot.ref).length = v.len + os.length := by
    rw [List.length_append, List.length_take, List.length_map]
    omega
  rw [List.take_append, hlen, List.take_of_length_le (by omega), Nat.add_sub_cancel_left, List.take_succ_cons,
    List.take_zero, targets_append, targets_append, targets_map_ref, htake]
  rfl

theorem Good.push {item : ℕ} (hg : Good h held L) (ha : ∃ c, h.cell a = some c) (hi : ∃ c, h.cell item = some c)
    (hfit : ∀ v, h.body a = some (.array v) → Affords room v.len) :
    ∃ h', arrayPush room a item h = some h' ∧ Good h' held (Function.update L a (L a ++ [.value item])) := by
  obtain ⟨c, v, hc, hv⟩ | ⟨c, hc, hv⟩ := array_or_not ha
  · have hbody : h.body a = some (.array v) := hv ▸ Heap.body_of_cell hc
    have hh := hg.holds a v (by simp) hbody
    obtain ⟨items, hgrow, hlt, htake, hbeyond⟩ := exists_growOnce (hfit v hbody) hh
    obtain ⟨h₁, hr, hg₁⟩ := Good.retain hg hi
    obtain ⟨c₁, hc₁, hv₁⟩ := cell_of_body ((body_retain hr a).trans hbody)
    have hset : items.set v.len (.ref item) = items.take v.len ++ .ref item :: items.drop (v.len + 1) :=
      List.set_eq_take_append_cons_drop.trans (if_pos hlt)
    refine ⟨h₁.put a (some ⟨c₁.count, .array ⟨items.set v.len (.ref item), v.len + 1⟩⟩), ?_, ?_⟩
    · rw [arrayPush, hbody]
      simp only [hgrow, Option.bind_eq_bind, Option.bind_some, hr, Heap.putBody, hc₁, Option.map_some]
    · have hh₁ := hg₁.holds a v (by simp) ((body_retain hr a).trans hbody)
      rw [hset]
      refine Good.setArray (GoodBut.weaken hg₁ _) hc₁ hv₁
        (by simpa using hh₁.append [] item htake (by simp) hlt hbeyond) fun p => ?_
      have htargets := @targets_take_append v items [] item (Nat.le_of_lt hlt) htake (items.drop (v.len + 1))
      simp only [List.map_nil, List.append_nil, List.length_nil, Nat.add_zero] at htargets
      simp only [htargets, List.count_append, List.count_cons, List.count_nil]
      omega
  · refine ⟨h, ?_, GoodBut.update_of_ne hg hc hv _⟩
    rw [arrayPush, Heap.body_of_cell hc]
    split
    next v heq => exact absurd (Option.some.inj heq) (hv v)
    next => rfl
    next heq => cases heq

theorem exists_putBody (hc : ∃ c, h.cell a = some c) (b : Body) : ∃ c, h.cell a = some c ∧
    h.putBody a b = some (h.put a (some ⟨c.count, b⟩)) := by
  obtain ⟨c, hc⟩ := hc
  exact ⟨c, hc, by rw [Heap.putBody, hc, Option.map_some]⟩

/-- Storing at or behind the end, where everything up to there has been cleared. -/
theorem Good.setBehind {idx val : ℕ} (hg : Good h held L) (hbody : h.body a = some (.array v))
    (hval : val ∈ held) (hge : v.len ≤ idx) {items : List Slot} (htake : items.take v.len = v.items.take v.len)
    (hlt : idx < items.length) (hnull : ∀ j, v.len ≤ j → j ≤ idx → items[j]? = some .null)
    (hbeyond : ∀ j, idx < j → ∀ o, items[j]? ≠ some (Slot.ref o)) :
    ∃ v' h₀ h₁ h', extendTo idx v.len items h = some (v', h₀) ∧ h₀.putBody a (.array v') = some h₁ ∧
      overwrite a idx val v' h₁ = some h' ∧
      Good h' held (Function.update L a (L a ++ List.replicate (idx - v.len) .pad ++ [.value val])) := by
  have hidx : v.len + (idx - v.len) = idx := by omega
  set news := List.range' h.size (idx - v.len) with hnews
  have hlen : news.length = idx - v.len := List.length_range'
  have hfill := @fillNulls_eq items h v.len (idx - v.len) fun j h1 h2 => hnull j h1 (by omega)
  rw [hidx, List.drop_eq_getElem_cons hlt] at hfill
  have hidx' : items[idx] = .null := Option.some.inj ((List.getElem?_eq_getElem hlt).symm.trans
    (hnull idx hge (Nat.le_refl _)))
  rw [hidx', ← hnews] at hfill
  have hfront : (items.take v.len ++ news.map Slot.ref).length = idx := by
    rw [List.length_append, List.length_take, List.length_map, hlen]
    omega
  -- the new nulls, and the reference to the value
  have hg₀ : Good (h.allocs (idx - v.len) .null) (news ++ held) L :=
    hg.keep (keeps_allocs _) (hg.balanced.allocs rfl _)
  obtain ⟨c, hc, hv⟩ := cell_of_body hbody
  have hbody₀ : (h.allocs (idx - v.len) .null).body a = some (.array v) := by
    rw [Heap.body_of_cell (Heap.cell_allocs_of_cell _ _ hc), hv]
  obtain ⟨h₂, hr, hg₂⟩ := Good.retain hg₀ (hg₀.balanced.exists_cell (List.mem_append_right _ hval))
  have hbody₂ := (body_retain hr a).trans hbody₀
  obtain ⟨c₂, hc₂, hv₂⟩ := cell_of_body hbody₂
  obtain ⟨c₀, hc₀, hput⟩ := exists_putBody ⟨_, Heap.cell_allocs_of_cell (idx - v.len) Body.null hc⟩
    (.array ⟨items.take v.len ++ news.map Slot.ref ++ .null :: items.drop (idx + 1), idx + 1⟩)
  obtain ⟨h₃, hr₃, hput₃⟩ := Heap.retain_putBody hr hput
  refine ⟨_, _, _, h₂.put a (some ⟨c₂.count, .array
    ⟨items.take v.len ++ news.map Slot.ref ++ .ref val :: items.drop (idx + 1), idx + 1⟩⟩), ?_, hput, ?_, ?_⟩
  · rw [extendTo, if_pos hge, hfill, Option.map_some]
  · have hget : (items.take v.len ++ news.map Slot.ref ++ .null :: items.drop (idx + 1))[idx]? = some .null := by
      rw [List.getElem?_append_right (by omega), hfront, Nat.sub_self, List.getElem?_cons_zero]
    have hset : (items.take v.len ++ news.map Slot.ref ++ .null :: items.drop (idx + 1)).set idx (.ref val) =
        items.take v.len ++ news.map Slot.ref ++ .ref val :: items.drop (idx + 1) := by
      rw [List.set_append_right _ _ (by omega), hfront, Nat.sub_self, List.set_cons_zero]
    simp only [overwrite, hget, Option.bind_eq_bind, Option.bind_some, valueDeref, Heap.release, hr₃, hset]
    rw [Heap.putBody_putBody hput₃, Heap.putBody, hc₂, Option.map_some]
  · have happend := (hg₂.holds a v (by simp) hbody₂).append news val htake
      (fun o ho => ?_) (by omega) (by rw [hlen, hidx]; exact hbeyond)
    · rw [hlen, hidx] at happend
      refine Good.setArray (GoodBut.weaken hg₂ _) hc₂ hv₂ happend fun p => ?_
      have htargets := @targets_take_append v items news val (by omega) htake (items.drop (idx + 1))
      rw [hlen, hidx] at htargets
      simp only [htargets, List.count_append, List.count_cons, List.count_nil]
      omega
    · rw [body_retain hr, Heap.body_of_cell (Heap.cell_allocs_of_mem _ ho)]

theorem Good.setWithin {idx val : ℕ} (hg : Good h held L) (hbody : h.body a = some (.array v)) (ha : a ∈ held)
    (hval : val ∈ held) (hlt : idx < v.len) :
    ∃ h₁ h', h.putBody a (.array v) = some h₁ ∧ overwrite a idx val v h₁ = some h' ∧
      Good h' held (Function.update L a ((L a).set idx (.value val))) := by
  have hh := hg.holds a v (by simp) hbody
  obtain ⟨o, ho⟩ := hh.exists_ref hlt
  obtain ⟨c, hc, hv⟩ := cell_of_body hbody
  have hgetTake : (v.items.take v.len)[idx]? = some (.ref o) := by rw [List.getElem?_take, if_pos hlt, ho]
  have hltTake : idx < (v.items.take v.len).length := (List.getElem?_eq_some_iff.mp hgetTake).1
  -- the heap without the old element: it is released from there
  have hclear : h.putBody a (.array ⟨v.items.set idx .null, v.len⟩) =
      some (h.put a (some ⟨c.count, .array ⟨v.items.set idx .null, v.len⟩⟩)) := by
    rw [Heap.putBody, hc, Option.map_some]
  have hg₁ : GoodBut (some a) (h.put a (some ⟨c.count, .array ⟨v.items.set idx .null, v.len⟩⟩)) (o :: held) L := by
    refine (GoodBut.weaken hg _).putArray hc hv (fun hmem => ?_) fun p => ?_
    · rw [Body.slots, List.take_set] at hmem
      exact (List.mem_or_eq_of_mem_set hmem).elim hh.written (by simp)
    · have hcount := Heap.count_targets_set hgetTake .null p
      rw [List.take_set]
      simp only [targets_ref, targets_null, targets_nil, List.count_cons, List.count_nil] at hcount ⊢
      omega
  obtain ⟨g, hrel, hbal, hsize, hkept⟩ := Heap.exists_release (w := [.ref o]) hg₁.balanced (by simp)
  have hg₂ : GoodBut (some a) g held L := hg₁.keep (.of_bodies hsize hkept) hbal
  -- what the code does on the heap with the old element comes to the same
  obtain ⟨c₁, hc₁, hput⟩ := exists_putBody ⟨c, hc⟩ (.array v)
  obtain ⟨g', hput', hrel'⟩ := Heap.release_putBody hrel ((Heap.putBody_putBody hclear _).trans hput)
    (hbal.exists_cell ha)
  obtain ⟨g₃, hr, hg₃⟩ := Good.retain hg₂ (hbal.exists_cell hval)
  obtain ⟨g₄, hr₄, hput₄⟩ := Heap.retain_putBody hr hput'
  have hbody₃ : g₃.body a = some (.array ⟨v.items.set idx .null, v.len⟩) := by
    obtain ⟨c₂, hc₂⟩ := hbal.exists_cell ha
    have hold := hkept a _ (Heap.body_of_cell hc₂)
    rw [Heap.body, Heap.cell_put_self (Heap.lt_size_of_cell hc), Option.map_some] at hold
    rw [body_retain hr, Heap.body_of_cell hc₂, ← hold]
  obtain ⟨c₃, hc₃, hv₃⟩ := cell_of_body hbody₃
  refine ⟨_, g₃.put a (some ⟨c₃.count, .array ⟨v.items.set idx (.ref val), v.len⟩⟩), hput, ?_, ?_⟩
  · simp only [overwrite, ho, Option.bind_eq_bind, Option.bind_some, valueDeref, hrel', hr₄]
    rw [Heap.putBody_putBody hput₄, Heap.putBody, hc₃, Option.map_some]
  · refine Good.setArray hg₃ hc₃ hv₃ (hh.set hlt val fun j p x hj hne hp hs => ?_) fun p => ?_
    · have hmem : .ref p ∈ Body.slots c₃.body := by
        rw [hv₃, Body.slots]
        exact List.mem_of_getElem? (i := j)
          (by rw [List.getElem?_take, if_pos hj, List.getElem?_set_ne (Ne.symm hne), hp])
      have hthere := hg₃.balanced.exists_cell_of_body hc₃ hmem
      have hkeeps := Keeps.of_bodies hsize hkept
      exact (hs.putArray hc hv).keep (hkeeps.trans_retain hr) hthere
    have hnull : ((v.items.take v.len).set idx .null)[idx]? = some Slot.null := by
      rw [List.getElem?_set_self hltTake]
    have hcount := Heap.count_targets_set hnull (.ref val) p
    rw [List.set_set] at hcount
    simp only [List.take_set, targets_ref, targets_null, targets_nil, List.count_cons, List.count_nil] at hcount ⊢
    omega

theorem setPadded_behind {l : List Item} {n : ℕ} (hle : l.length ≤ n) (x : Item) :
    setPadded l n x = l ++ List.replicate (n - l.length) .pad ++ [x] := by
  rw [setPadded, if_neg (by omega), Int.toNat_natCast, show n + 1 - l.length = n - l.length + 1 by omega,
    List.replicate_succ', ← List.append_assoc, List.set_append_right _ _ (by simp; omega)]
  simp [show n - (l.length + (n - l.length)) = 0 by omega]

theorem setPadded_within {l : List Item} {n : ℕ} (hlt : n < l.length) (x : Item) :
    setPadded l n x = l.set n x := by
  rw [setPadded, if_neg (by omega), Int.toNat_natCast, show n + 1 - l.length = 0 by omega, List.replicate_zero,
    List.append_nil]

theorem cleared_of_growTo {items : List Slot} {idx : ℕ} (hh : Holds h v l) (hge : v.len ≤ idx)
    (hwritten : idx < v.items.length → ∀ j, v.len ≤ j → j ≤ idx → v.items[j]? ≠ some .unwritten)
    (hlt : idx < items.length)
    (hcases : items = v.items ∨ (v.items.length ≤ idx ∧ ∃ k, items = v.items.take v.len ++ List.replicate k .null)) :
    items.take v.len = v.items.take v.len ∧ (∀ j, v.len ≤ j → j ≤ idx → items[j]? = some .null) ∧
      ∀ j, idx < j → ∀ o, items[j]? ≠ some (Slot.ref o) := by
  have htake : (v.items.take v.len).length = v.len := List.length_take_of_le hh.le
  obtain rfl | ⟨-, k, rfl⟩ := hcases
  · refine ⟨rfl, fun j h1 h2 => ?_, fun j hj => hh.beyond j (by omega)⟩
    have hj : j < v.items.length := by omega
    rcases hs : v.items[j] with _ | _ | o
    · exact absurd (hs ▸ List.getElem?_eq_getElem hj) (hwritten hlt j h1 h2)
    · rw [List.getElem?_eq_getElem hj, hs]
    · exact absurd (hs ▸ List.getElem?_eq_getElem hj) (hh.beyond j h1 o)
  · refine ⟨?_, fun j h1 h2 => ?_, fun j hj o => ?_⟩
    · rw [List.take_append_of_le_length (Nat.le_of_eq htake.symm), List.take_take, Nat.min_self]
    · rw [List.length_append, htake, List.length_replicate] at hlt
      rw [List.getElem?_append_right (by omega), htake, List.getElem?_replicate, if_pos (by omega)]
    · rw [List.getElem?_append_right (by omega), htake, List.getElem?_replicate]
      split_ifs <;> simp

theorem Good.set {idx : ℤ} {val : ℕ} (hg : Good h held L) (ha : a ∈ held) (hval : val ∈ held)
    (hfit : Affords room idx.toNat)
    (hwritten : ∀ v, h.body a = some (.array v) → idx < v.items.length →
      ∀ j : ℕ, v.len ≤ j → (j : ℤ) ≤ idx → v.items[j]? ≠ some .unwritten) :
    ∃ h', arraySet room a idx val h = some h' ∧
      Good h' held (Function.update L a (setPadded (L a) idx (.value val))) := by
  obtain ⟨c, v, hc, hv⟩ | ⟨c, hc, hv⟩ := array_or_not (hg.balanced.exists_cell ha)
  · have hbody : h.body a = some (.array v) := hv ▸ Heap.body_of_cell hc
    have hh := hg.holds a v (by simp) hbody
    by_cases hneg : idx < 0
    · refine ⟨h, ?_, ?_⟩
      · rw [arraySet, hbody]
        simp only [if_pos hneg]
      · rw [setPadded, if_pos hneg, Function.update_eq_self]
        exact hg
    · obtain ⟨n, rfl⟩ := Int.eq_ofNat_of_zero_le (Int.not_lt.mp hneg)
      rw [Int.toNat_natCast] at hfit
      obtain ⟨items, hgrow, hlt, hcases⟩ := exists_growTo hfit hh.le
      by_cases hge : v.len ≤ n
      · obtain ⟨htake, hnull, hbeyond⟩ := cleared_of_growTo hh hge
          (fun h1 j h2 h3 => hwritten v hbody (by omega) j h2 (by omega)) hlt hcases
        obtain ⟨v', h₀, h₁, h', hext, hput, hover, hgood⟩ :=
          Good.setBehind hg hbody hval hge htake hlt hnull hbeyond
        refine ⟨h', ?_, ?_⟩
        · rw [arraySet, hbody]
          simp only [if_neg hneg, Int.toNat_natCast, hgrow, Option.bind_eq_bind, Option.bind_some, hext, hput, hover]
        · rw [setPadded_behind (by rwa [← hh.length]), ← hh.length]
          exact hgood
      · have hitems : items = v.items := hcases.resolve_right fun h => absurd h.1 (by have := hh.le; omega)
        obtain ⟨h₁, h', hput, hover, hgood⟩ := Good.setWithin hg hbody ha hval (Nat.lt_of_not_le hge)
        refine ⟨h', ?_, ?_⟩
        · rw [arraySet, hbody]
          simp only [if_neg hneg, Int.toNat_natCast, hgrow, Option.bind_eq_bind, Option.bind_some, extendTo,
            ge_iff_le, if_neg hge, hitems, hput, hover]
        · rw [setPadded_within (by rw [← hh.length]; exact Nat.lt_of_not_le hge)]
          exact hgood
  · refine ⟨h, ?_, GoodBut.update_of_ne hg hc hv _⟩
    rw [arraySet, Heap.body_of_cell hc]
    split
    next v heq => exact absurd (Option.some.inj heq) (hv v)
    next => rfl
    next heq => exact nomatch heq

theorem Good.alloc {b : Body} (hg : Good h (targets b.slots ++ held) L) (hb : ∀ v, b = .array v → v = ⟨[], 0⟩)
    (hwritten : .unwritten ∉ b.slots) : Good (h.alloc b) (h.size :: held) L where
  balanced := hg.balanced.alloc hwritten
  holds a v _ hv := by
    obtain ⟨c, hc, hcv⟩ := cell_of_body hv
    obtain hc | ⟨rfl, rfl⟩ := Heap.cell_of_alloc hc
    · have hh := hg.holds a v (by simp) (hcv ▸ Heap.body_of_cell hc)
      refine ⟨hh.length, hh.le, fun j x hx => (hh.shows j x hx).imp fun o ho => ⟨ho.1, ?_⟩, hh.beyond⟩
      cases x with
      | value o' => exact ho.2
      | pad =>
        obtain ⟨d, hd, hdn⟩ := cell_of_body (show h.body o = some Body.null from ho.2)
        change (h.alloc b).body o = some Body.null
        rw [Heap.body, Heap.cell_alloc_of_lt b (Heap.lt_size_of_cell hd), hd, Option.map_some, hdn]
    · obtain rfl := hb v hcv
      rw [hg.fresh _ (Nat.le_refl _)]
      exact ⟨rfl, Nat.le_refl _, fun j x hx => by simp at hx, fun j _ o => by simp⟩
  fresh o ho := hg.fresh o (by rw [Heap.size_alloc] at ho; omega)

theorem Good.pop (hg : Good h held L) (ha : ∃ c, h.cell a = some c) :
    ∃ h' s, builtinPop a h = some (h', s) ∧ Good h' (targets [s] ++ held) (Function.update L a (L a).dropLast) := by
  have hnew : Good (h.alloc .null) (h.size :: held) L := Good.alloc hg (by simp) (by simp [Body.slots])
  obtain ⟨c, v, hc, hv⟩ | ⟨c, hc, hv⟩ := array_or_not ha
  · have hbody : h.body a = some (.array v) := hv ▸ Heap.body_of_cell hc
    have hh := hg.holds a v (by simp) hbody
    by_cases hzero : v.len = 0
    · refine ⟨h.alloc .null, .ref h.size, ?_, ?_⟩
      · rw [builtinPop, hbody]
        simp only [if_pos hzero]
      · have hnil : (L a).dropLast = L a := by
          rw [List.length_eq_zero_iff.mp (hh.length.symm.trans hzero)]
          rfl
        rw [hnil, Function.update_eq_self]
        exact hnew
    · have hpos : 0 < v.len := Nat.pos_of_ne_zero hzero
      have hlast : v.len - 1 < v.len := Nat.sub_lt hpos Nat.one_pos
      obtain ⟨o, ho⟩ := hh.exists_ref hlast
      refine ⟨_, .ref o, ?_, Good.setArray (GoodBut.weaken hg _) hc hv (hh.pop hpos) fun p => ?_⟩
      · rw [builtinPop, hbody]
        simp only [if_neg hzero, ho, Option.bind_eq_bind, Option.bind_some, reduceCtorEq, if_false, Heap.putBody, hc,
          Option.map_some]
      · -- the reference has moved from the table to the caller
        have htake : (v.items.set (v.len - 1) .null).take (v.len - 1) = v.items.take (v.len - 1) :=
          List.take_set_of_le (Nat.le_refl _)
        have hsucc : v.items.take v.len = v.items.take (v.len - 1) ++ [.ref o] := by
          conv_lhs => rw [show v.len = v.len - 1 + 1 by omega]
          rw [List.take_add_one, ho, Option.toList_some]
        simp only [htake, hsucc, targets_append, targets_ref, targets_nil, List.count_append]
        omega
  · refine ⟨h.alloc .null, .ref h.size, ?_, ?_⟩
    · rw [builtinPop, Heap.body_of_cell hc]
      split
      next v heq => exact absurd (Option.some.inj heq) (hv v)
      next => rfl
      next heq => cases heq
    · exact GoodBut.update_of_ne hnew
        ((Heap.cell_alloc_of_lt _ (Heap.lt_size_of_cell hc)).trans hc) hv _

theorem Good.drop (hg : Good h held L) (ho : o ∈ held) :
    ∃ h', valueDeref (.ref o) h = some h' ∧ Good h' (held.erase o) L := by
  have hbal : h.Balanced Body.slots (targets [.ref o] ++ held.erase o) :=
    hg.balanced.perm fun p => (List.perm_cons_erase ho).count_eq p
  obtain ⟨h', hrel, hbal', hsize, hkept⟩ := Heap.exists_release hbal (by simp)
  exact ⟨h', hrel, hg.keep (.of_bodies hsize hkept) hbal'⟩

theorem Good.retainAll {os : List ℕ} (hg : Good h held L) (hos : ∀ o ∈ os, ∃ c, h.cell o = some c) :
    ∃ h', retainAll os h = some h' ∧ Good h' (os ++ held) L := by
  induction os generalizing h held with
  | nil => exact ⟨h, rfl, hg⟩
  | cons o os ih =>
    rw [List.forall_mem_cons] at hos
    obtain ⟨h₁, hr, hg₁⟩ := Good.retain hg hos.1
    have hos₁ : ∀ o' ∈ os, ∃ c, h₁.cell o' = some c := by
      intro o' ho'
      obtain ⟨c, hc⟩ := hos.2 o' ho'
      have hbody := (body_retain hr o').trans (Heap.body_of_cell hc)
      exact (cell_of_body hbody).imp fun _ h => h.1
    obtain ⟨h₂, hr₂, hg₂⟩ := ih hg₁ hos₁
    refine ⟨h₂, by rw [Arrays.retainAll, hr, Option.bind_eq_bind, Option.bind_some, hr₂], ?_⟩
    exact ⟨hg₂.balanced.perm fun p => by simp only [List.count_append, List.count_cons]; omega, hg₂.holds, hg₂.fresh⟩

/-- What `array_get` finds. -/
theorem Good.get (hg : Good h held L) (hbody : h.body a = some (.array v)) (i : ℤ) :
    ∃ s, arrayGet a i h = some s ∧ Shows h s (readPadded (L a) i) := by
  have hh := hg.holds a v (by simp) hbody
  by_cases hout : i < 0 ∨ i ≥ v.len
  · refine ⟨.null, ?_, ?_⟩
    · rw [arrayGet, hbody]
      simp only [if_pos hout]
    · have hpad : readPadded (L a) i = .pad := by
        rw [readPadded]
        split_ifs with hneg
        · rfl
        · rw [List.getElem?_eq_none (by rw [← hh.length]; omega)]
          rfl
      rw [hpad]
      exact trivial
  · have hlt : i.toNat < (L a).length := by
      rw [← hh.length]
      omega
    obtain ⟨o, ho, hs⟩ := hh.shows _ _ (List.getElem?_eq_getElem hlt)
    refine ⟨.ref o, ?_, ?_⟩
    · rw [arrayGet, hbody]
      simp only [if_neg hout, ho]
    · rw [readPadded, if_neg (fun hneg => hout (Or.inl hneg)), List.getElem?_eq_getElem hlt]
      exact hs

theorem Good.areLists (hg : Good h held L) : AreLists h L := by
  intro a v hbody
  have hh := hg.holds a v (by simp) hbody
  refine ⟨hh.length, fun j hj => ?_, hg.get hbody⟩
  obtain ⟨o, ho⟩ := hh.exists_ref hj
  obtain ⟨c, hc, hv⟩ := cell_of_body hbody
  have hmem : .ref o ∈ Body.slots c.body := by
    rw [hv, Body.slots]
    exact List.mem_of_getElem? (i := j) (by rw [List.getElem?_take, if_pos hj, ho])
  obtain ⟨c', hc'⟩ := hg.balanced.exists_cell_of_body hc hmem
  exact ⟨o, c', ho, hc'⟩

/-- **One step.** -/
theorem Good.step {w : World} {op : Op} (hg : Good w.heap w.held L) (hcalled : Called w op) (hfit : Fits room w op)
    (hwritten : FindsWritten w op) :
    ∃ w', step room op w = some w' ∧ Good w'.heap w'.held (onLists op L) := by
  cases op with
  | array => exact ⟨_, rfl, Good.alloc hg (fun v hv => by simpa using hv.symm) (by simp [Body.slots])⟩
  | null => exact ⟨_, rfl, Good.alloc hg (by simp) (by simp [Body.slots])⟩
  | other values =>
    obtain ⟨h', hr, hg'⟩ := hg.retainAll hcalled
    refine ⟨_, by rw [Arrays.step, hr, Option.map_some], ?_⟩
    have hslots : targets (Body.other values).slots = values := targets_map_ref values
    exact Good.alloc (by rwa [hslots]) (by simp) (by simp [Body.slots])
  | keep o =>
    obtain ⟨h', hr, hg'⟩ := Good.retain hg hcalled
    exact ⟨⟨h', o :: w.held⟩, by rw [Arrays.step, hr, Option.map_some], hg'⟩
  | drop o =>
    obtain ⟨h', hr, hg'⟩ := hg.drop hcalled
    exact ⟨⟨h', w.held.erase o⟩, by rw [Arrays.step, hr, Option.map_some], hg'⟩
  | push a item =>
    obtain ⟨h', hr, hg'⟩ := hg.push hcalled.1 hcalled.2 hfit
    exact ⟨⟨h', w.held⟩, by rw [Arrays.step, hr, Option.map_some], hg'⟩
  | set a idx val =>
    obtain ⟨h', hr, hg'⟩ := hg.set hcalled.1 hcalled.2 hfit hwritten
    exact ⟨⟨h', w.held⟩, by rw [Arrays.step, hr, Option.map_some], hg'⟩
  | get a idx =>
    refine ⟨w, ?_, hg⟩
    obtain ⟨c, v, hc, hv⟩ | ⟨c, hc, hv⟩ := array_or_not hcalled
    · obtain ⟨s, hs, -⟩ := hg.get (hv ▸ Heap.body_of_cell hc) idx
      rw [Arrays.step, hs, Option.map_some]
    · rw [Arrays.step, arrayGet, Heap.body_of_cell hc]
      split
      next v heq => exact absurd (Option.some.inj heq) (hv v)
      next => rfl
      next heq => exact nomatch heq
  | pop a =>
    obtain ⟨h', s, hr, hg'⟩ := hg.pop hcalled
    exact ⟨⟨h', targets [s] ++ w.held⟩, by rw [Arrays.step, hr, Option.map_some], hg'⟩

end Invariant

/-! ## Runs -/

/-- The callers keep to their rules, and nothing goes beyond the memory. -/
def Proper (room : ℕ) (w : World) (op : Op) : Prop := Called w op ∧ Fits room w op

/-- Moreover no `array_set` comes to an unwritten slot. -/
def Careful (room : ℕ) (w : World) (op : Op) : Prop := Proper room w op ∧ FindsWritten w op

theorem Good.run {room : ℕ} {ops : List Op} {w : World} {L : Lists} (hg : Good w.heap w.held L)
    (h : Along room (Careful room) ops w) :
    ∃ w', run room ops w = some w' ∧ Good w'.heap w'.held (ops.foldl (fun L op => onLists op L) L) := by
  induction ops generalizing w L with
  | nil => exact ⟨w, rfl, hg⟩
  | cons op ops ih =>
    obtain ⟨⟨⟨hcalled, hfit⟩, hwritten⟩, hrest⟩ := h
    obtain ⟨w₁, hstep, hg₁⟩ := hg.step hcalled hfit hwritten
    obtain ⟨w', hrun, hg'⟩ := ih hg₁ (hrest w₁ hstep)
    exact ⟨w', by rw [Arrays.run, hstep, Option.bind_eq_bind, Option.bind_some, hrun], hg'⟩

theorem good_empty : Good World.empty.heap World.empty.held fun _ => [] where
  balanced := Heap.balanced_empty
  holds _ _ _ hv := nomatch hv
  fresh _ _ := rfl

/-- `a = [1]`. -/
def single : World :=
  ⟨⟨[some ⟨1, .array ⟨.ref 1 :: List.replicate 7 .unwritten, 1⟩⟩, some ⟨2, .other []⟩]⟩, [1, 0]⟩

theorem Along.cons {room : ℕ} {P : World → Op → Prop} {op : Op} {ops : List Op} {w w' : World} (hP : P w op)
    (hstep : step room op w = some w') (h : Along room P ops w') : Along room P (op :: ops) w :=
  ⟨hP, fun _ hw₁ => Option.some.inj (hstep.symm.trans hw₁) ▸ h⟩

theorem along_single {P : World → Op → Prop} (hP : ∀ w op, Careful 8 w op → P w op) {ops : List Op}
    (h : Along 8 P ops single) : Along 8 P (.array :: .other [] :: .push 0 1 :: ops) .empty := by
  refine .cons (hP _ _ ⟨⟨trivial, trivial⟩, trivial⟩) rfl ?_
  refine .cons (hP _ _ ⟨⟨fun o ho => absurd ho List.not_mem_nil, trivial⟩, trivial⟩) rfl ?_
  refine .cons (hP _ _ ⟨⟨⟨⟨_, rfl⟩, ⟨_, rfl⟩⟩, fun v hv => ?_⟩, trivial⟩) rfl h
  obtain rfl := Body.array.inj (Option.some.inj hv)
  decide

/-- **Arrays are lists.**  In a run that never comes to an unwritten slot, every operation is defined (nothing that is
uninitialised or freed is read or released), and at its end every array holds its list, of values that are there: also
where an element has been set to the value that it had. -/
theorem arrays_are_lists (room : ℕ) (ops : List Op) (h : Along room (Careful room) ops .empty) :
    ∃ w, run room ops .empty = some w ∧ AreLists w.heap (listsOf ops) := by
  obtain ⟨w, hrun, hg⟩ := good_empty.run h
  exact ⟨w, hrun, hg.areLists⟩

/-- An item is replaced by itself. -/
theorem arrays_are_lists_same :
    ∃ w, run 8 [.array, .other [], .push 0 1, .set 0 0 1] .empty = some w ∧
      AreLists w.heap (listsOf [.array, .other [], .push 0 1, .set 0 0 1]) := by
  refine arrays_are_lists 8 _
    (along_single (fun _ _ h => h) ⟨⟨⟨⟨by decide, by decide⟩, show Affords 8 0 by decide⟩, ?_⟩, ?_⟩)
  · intro v hv _ j hlen hj
    obtain rfl := Body.array.inj (Option.some.inj hv)
    change 1 ≤ j at hlen
    omega
  · exact fun _ _ => trivial

/-- `a = [1]`, where the array has the only reference to its item. -/
def soleOwner : World :=
  ⟨⟨[some ⟨1, .array ⟨.ref 1 :: List.replicate 7 .unwritten, 1⟩⟩, some ⟨1, .other []⟩]⟩, [0]⟩

theorem step_drop_single : step 8 (.drop 1) single = some soleOwner := by
  have hcell : single.heap.cell 1 = some ⟨2, .other []⟩ := rfl
  rw [step, valueDeref, Heap.release_ref hcell, if_neg (by decide), Heap.release]
  rfl

/-- The item is freed before it is retained. -/
theorem step_set_soleOwner : step 8 (.set 0 0 1) soleOwner = none := by
  have hbody : soleOwner.heap.body 0 = some (.array ⟨.ref 1 :: List.replicate 7 .unwritten, 1⟩) := rfl
  have hcell : soleOwner.heap.cell 1 = some ⟨1, .other []⟩ := rfl
  have hgrow : growTo 8 0 1 (.ref 1 :: List.replicate 7 .unwritten) =
      some (.ref 1 :: List.replicate 7 .unwritten) := by
    rw [growTo, if_neg (by decide)]
  have hextend : extendTo 0 1 (.ref 1 :: List.replicate 7 .unwritten) soleOwner.heap =
      some (⟨.ref 1 :: List.replicate 7 .unwritten, 1⟩, soleOwner.heap) := rfl
  have hput : soleOwner.heap.putBody 0 (.array ⟨.ref 1 :: List.replicate 7 .unwritten, 1⟩) =
      some soleOwner.heap := rfl
  have hfreed : valueDeref (.ref 1) soleOwner.heap = some (soleOwner.heap.put 1 none) := by
    rw [valueDeref, Heap.release_ref hcell, if_pos (by decide), Body.slots, List.map_nil, List.append_nil,
      Heap.release]
  have hover : overwrite 0 0 1 ⟨.ref 1 :: List.replicate 7 .unwritten, 1⟩ soleOwner.heap = none := by
    rw [overwrite, List.getElem?_cons_zero, Option.bind_eq_bind, Option.bind_some, hfreed]
    rfl
  rw [step, arraySet, hbody]
  simp only [Int.toNat_zero, hgrow, hextend, hput, hover, Option.bind_eq_bind, Option.bind_some]
  rfl

/-- `a = [1]; a[1] = 1`: the second slot has not been written.  And an element may not be set to the value that it has
where the array alone refers to it. -/
theorem array_set_unwritten :
    (¬ ∀ (room : ℕ) (ops : List Op), Along room (Proper room) ops .empty →
      ∃ w, run room ops .empty = some w ∧ AreLists w.heap (listsOf ops)) ∧
    run 8 [.array, .other [], .push 0 1, .drop 1, .set 0 0 1] .empty = none := by
  have hsole : run 8 [.array, .other [], .push 0 1, .drop 1, .set 0 0 1] .empty =
      run 8 [.drop 1, .set 0 0 1] single := rfl
  refine ⟨?_, by rw [hsole, run, step_drop_single, Option.bind_eq_bind, Option.bind_some, run, step_set_soleOwner]; rfl⟩
  intro h
  obtain ⟨w, hrun, -⟩ := h 8 [.array, .other [], .push 0 1, .set 0 1 1]
    (along_single (fun _ _ h => h.1) ⟨⟨⟨by decide, by decide⟩, show Affords 8 1 by decide⟩, fun _ _ => trivial⟩)
  have hset : step 8 (.set 0 1 1) single = none := by
    simp [step, arraySet, single, Heap.body, Heap.cell, growTo, extendTo, fillNulls, Heap.putBody, Heap.put,
      overwrite, valueDeref, Heap.release]
  have hrun' : run 8 [.array, .other [], .push 0 1, .set 0 1 1] .empty = step 8 (.set 0 1 1) single >>= some := rfl
  rw [hrun', hset] at hrun
  cases hrun

end VelocityMcp.Interp.Arrays
