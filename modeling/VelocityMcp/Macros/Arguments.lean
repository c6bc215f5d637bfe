import VelocityMcp.Macros.McpTool

/-!
# Macros.Arguments — the arguments that the generated dispatchers pass on (`macros/src/lib.rs`)

`mcpTool_exact_iff`: when the function is called with exactly the arguments of the request, or not at all.
-/

namespace VelocityMcp.Macros

open Lib

/-! ## What is read, and what goes wrong -/

def written : Number → Option ℤ
  | .posInt n => some n.toNat
  | .negInt i _ => some i.toInt
  | .float _ _ => none

/-- What the code reads for a type: of numbers, any that are written in the right way. -/
def Ident.Read (ident : Ident) (v : Value) : Prop :=
  match ident with
  | .string => ∃ s, v = .string s
  | .signed _ => ∃ n k, v = .number n ∧ written n = some k ∧ k < 2 ^ 63
  | .unsigned _ => ∃ n k, v = .number n ∧ written n = some k ∧ 0 ≤ k
  | .f64 => ∃ n, v = .number n
  | .bool => ∃ b, v = .bool b
  | _ => False

/-- An integer that the type does not have. -/
def Ident.Oversized (ident : Ident) (v : Value) : Prop :=
  match ident with
  | .signed _ | .unsigned _ => ∃ n k, v = .number n ∧ written n = some k ∧ ¬ident.InRange k
  | .f64 => ∃ n k, v = .number n ∧ written n = some k ∧ ∀ b : ℕ, binary64 b ≠ k
  | _ => False

/-- A number that is written with a fraction or an exponent, where integers are read. -/
def Ident.WrittenAsFloat (ident : Ident) (v : Value) : Prop :=
  match ident with
  | .signed _ | .unsigned _ => ∃ n, v = .number n ∧ written n = none
  | _ => False

section Scalars

variable {narrow : UInt64 → UInt32} {ident : Ident} {v : Value} {a : Arg}

theorem value_of_written {n : Number} {k : ℤ} (h : written n = some k) : n.value = k := by
  cases n with
  | posInt n => rw [Number.value, ← Option.some.inj h, Int.cast_natCast]
  | negInt i neg => rw [Number.value, ← Option.some.inj h]
  | float bits finite => cases h

theorem asI64_eq {n : Number} : n.asI64.map Int64.toInt = (written n).filter (· < 2 ^ 63) := by
  cases n with
  | posInt n =>
    have hmax : Number.i64Max.toNat = 2 ^ 63 - 1 := rfl
    by_cases hn : n ≤ Number.i64Max
    · have hlt : n.toNat < 2 ^ 63 := by
        have hle := UInt64.le_iff_toNat_le.mp hn
        omega
      have hint : n.toInt64.toInt = n.toNat := by
        show n.toBitVec.toInt = _
        rw [BitVec.toInt_eq_toNat_of_lt (by rw [UInt64.toNat_toBitVec]; omega), UInt64.toNat_toBitVec]
      rw [Number.asI64, if_pos hn, Option.map_some, hint, written, Option.filter_some,
        if_pos (by rw [decide_eq_true_iff]; omega)]
    · have hge : ¬ n.toNat < 2 ^ 63 := fun hlt => hn (UInt64.le_iff_toNat_le.mpr (by omega))
      rw [Number.asI64, if_neg hn, Option.map_none, written, Option.filter_some,
        if_neg (by rw [decide_eq_true_iff]; omega)]
  | negInt i neg =>
    have hlt := i.toInt_lt
    rw [Number.asI64, Option.map_some, written, Option.filter_some, if_pos (by rw [decide_eq_true_iff]; omega)]
  | float bits finite => rfl

theorem asU64_eq {n : Number} : (n.asU64.map fun u => (u.toNat : ℤ)) = (written n).filter (0 ≤ ·) := by
  cases n with
  | posInt n =>
    rw [Number.asU64, Option.map_some, written, Option.filter_some, if_pos (by rw [decide_eq_true_iff]; omega)]
  | negInt i neg =>
    have hlt : i.toInt < 0 := Int64.lt_iff_toInt_lt.mp neg
    rw [Number.asU64, Option.map_none, written, Option.filter_some, if_neg (by rw [decide_eq_true_iff]; omega)]
  | float bits finite => rfl

theorem castInt_of_inRange {k : ℤ} (h : ident.InRange k) : castInt ident k = k := by
  cases ident with
  | signed w =>
    obtain ⟨h1, h2⟩ := h
    rw [castInt, Int.bmod_eq_iff (by positivity)]
    cases w <;> simp only [Width.bits] at h1 h2 ⊢ <;> omega
  | unsigned w =>
    obtain ⟨h1, h2⟩ := h
    exact Int.emod_eq_of_lt h1 (by exact_mod_cast h2)
  | _ => exact h.elim

theorem readItem_signed {w : Width} : readItem narrow (.signed w) v = some a ↔
    ∃ n k, v = .number n ∧ written n = some k ∧ k < 2 ^ 63 ∧ a = .int (castInt (.signed w) k) := by
  cases v with
  | number n =>
    have hmap : readItem narrow (.signed w) (.number n) =
        (n.asI64.map Int64.toInt).map fun k => .int (castInt (.signed w) k) := by
      rw [readItem, Option.map_map]
      rfl
    rw [hmap, asI64_eq, Option.map_eq_some_iff]
    constructor
    · rintro ⟨k, hk, rfl⟩
      obtain ⟨hw, hle⟩ := Option.filter_eq_some_iff.mp hk
      exact ⟨n, k, rfl, hw, of_decide_eq_true hle, rfl⟩
    · rintro ⟨n', k, heq, hw, hle, rfl⟩
      obtain rfl := Value.number.inj heq
      exact ⟨k, Option.filter_eq_some_iff.mpr ⟨hw, decide_eq_true hle⟩, rfl⟩
  | _ => simp [readItem]

theorem readItem_unsigned {w : Width} : readItem narrow (.unsigned w) v = some a ↔
    ∃ n k, v = .number n ∧ written n = some k ∧ 0 ≤ k ∧ a = .int (castInt (.unsigned w) k) := by
  cases v with
  | number n =>
    have hmap : readItem narrow (.unsigned w) (.number n) =
        (n.asU64.map fun u => (u.toNat : ℤ)).map fun k => .int (castInt (.unsigned w) k) := by
      rw [readItem, Option.map_map]
      rfl
    rw [hmap, asU64_eq, Option.map_eq_some_iff]
    constructor
    · rintro ⟨k, hk, rfl⟩
      obtain ⟨hw, hle⟩ := Option.filter_eq_some_iff.mp hk
      exact ⟨n, k, rfl, hw, of_decide_eq_true hle, rfl⟩
    · rintro ⟨n', k, heq, hw, hle, rfl⟩
      obtain rfl := Value.number.inj heq
      exact ⟨k, Option.filter_eq_some_iff.mpr ⟨hw, decide_eq_true hle⟩, rfl⟩
  | _ => simp [readItem]

theorem readItem_f64 :
    readItem narrow .f64 v = some a ↔ ∃ n bits, v = .number n ∧ n.asF64 = some bits ∧ a = .f64 bits := by
  cases v with
  | number n => simp [readItem, eq_comm]
  | _ => simp [readItem]

theorem readItem_bool : readItem narrow .bool v = some a ↔ ∃ b, v = .bool b ∧ a = .bool b := by
  cases v with
  | bool b => simp [readItem, eq_comm]
  | _ => simp [readItem]

theorem readItem_string : readItem narrow .string v = some a ↔ ∃ s, v = .string s ∧ a = .string s := by
  cases v with
  | string s => simp [readItem, Value.asStr, eq_comm]
  | _ => simp [readItem, Value.asStr]

theorem exists_readItem (hp : ident.Plain) : (∃ a, readItem narrow ident v = some a) ↔ ident.Read v := by
  cases ident with
  | string => simp [readItem_string, Ident.Read]
  | signed w =>
    simp only [readItem_signed, Ident.Read]
    constructor
    · rintro ⟨_, n, k, hv, hw, hk, -⟩
      exact ⟨n, k, hv, hw, hk⟩
    · rintro ⟨n, k, hv, hw, hk⟩
      exact ⟨_, n, k, hv, hw, hk, rfl⟩
  | unsigned w =>
    simp only [readItem_unsigned, Ident.Read]
    constructor
    · rintro ⟨_, n, k, hv, hw, hk, -⟩
      exact ⟨n, k, hv, hw, hk⟩
    · rintro ⟨n, k, hv, hw, hk⟩
      exact ⟨_, n, k, hv, hw, hk, rfl⟩
  | f64 =>
    simp only [readItem_f64, Ident.Read]
    constructor
    · rintro ⟨_, n, _, hv, -⟩
      exact ⟨n, hv⟩
    · rintro ⟨n, hv⟩
      cases n with
      | posInt n => exact ⟨_, _, _, hv, rfl, rfl⟩
      | negInt i neg => exact ⟨_, _, _, hv, rfl, rfl⟩
      | float bits finite => exact ⟨_, _, _, hv, rfl, rfl⟩
  | bool =>
    simp only [readItem_bool, Ident.Read]
    constructor
    · rintro ⟨_, b, hv, -⟩
      exact ⟨b, hv⟩
    · rintro ⟨b, hv⟩
      exact ⟨_, b, hv, rfl⟩
  | _ => exact hp.elim

theorem eq_of_value {n : Number} {k k' : ℤ} (hw : written n = some k) (hv : n.value = k') : k = k' := by
  rw [value_of_written hw] at hv
  exact_mod_cast hv

/-- **What fits is taken as it is.** -/
theorem readItem_exact (hr : readItem narrow ident v = some a) (hfit : ∃ a', ident.Represents v a') :
    ident.Represents v a := by
  cases ident with
  | string => exact readItem_string.mp hr
  | signed w =>
    obtain ⟨n, k, rfl, hw, hk, rfl⟩ := readItem_signed.mp hr
    obtain ⟨_, n', k', heq, -, hin, hv⟩ := hfit
    obtain rfl := Value.number.inj heq
    obtain rfl := eq_of_value hw hv
    exact ⟨n, k, rfl, by rw [castInt_of_inRange hin], hin, hv⟩
  | unsigned w =>
    obtain ⟨n, k, rfl, hw, hk, rfl⟩ := readItem_unsigned.mp hr
    obtain ⟨_, n', k', heq, -, hin, hv⟩ := hfit
    obtain rfl := Value.number.inj heq
    obtain rfl := eq_of_value hw hv
    exact ⟨n, k, rfl, by rw [castInt_of_inRange hin], hin, hv⟩
  | f64 =>
    obtain ⟨n, bits, rfl, hbits, rfl⟩ := readItem_f64.mp hr
    obtain ⟨_, n', bits', heq, -, -, hv⟩ := hfit
    obtain rfl := Value.number.inj heq
    obtain ⟨hfin, hvalue⟩ := Number.exact_asF64 hbits ⟨_, hv⟩
    exact ⟨n, bits, rfl, rfl, hfin, hvalue⟩
  | bool => exact readItem_bool.mp hr
  | _ => exact hfit.elim fun _ h => h.elim

theorem represents_of_read (hread : ident.Read v) (hsize : ¬ident.Oversized v) : ∃ a, ident.Represents v a := by
  cases ident with
  | string => exact hread.imp' .string fun s hs => ⟨s, hs, rfl⟩
  | signed w =>
    obtain ⟨n, k, hv, hw, -⟩ := hread
    have hin : Ident.InRange (.signed w) k := by_contra fun h => hsize ⟨n, k, hv, hw, h⟩
    exact ⟨.int k, n, k, hv, rfl, hin, value_of_written hw⟩
  | unsigned w =>
    obtain ⟨n, k, hv, hw, -⟩ := hread
    have hin : Ident.InRange (.unsigned w) k := by_contra fun h => hsize ⟨n, k, hv, hw, h⟩
    exact ⟨.int k, n, k, hv, rfl, hin, value_of_written hw⟩
  | f64 =>
    obtain ⟨n, hv⟩ := hread
    have hexists : ∃ b : ℕ, binary64 b = n.value := by
      rcases hw : written n with _ | k
      · cases n with
        | float bits finite => exact ⟨_, rfl⟩
        | posInt n => exact nomatch hw
        | negInt i neg => exact nomatch hw
      · by_contra hnone
        refine hsize ⟨n, k, hv, hw, fun b hb => hnone ⟨b, ?_⟩⟩
        rw [hb, value_of_written hw]
    obtain ⟨bits, hbits⟩ : ∃ bits, n.asF64 = some bits := by cases n <;> exact ⟨_, rfl⟩
    obtain ⟨hfin, hvalue⟩ := Number.exact_asF64 hbits hexists
    exact ⟨.f64 bits, n, bits, hv, rfl, hfin, hvalue⟩
  | bool => exact hread.imp' .bool fun b hb => ⟨b, hb, rfl⟩
  | _ => exact hread.elim

theorem not_oversized (hfit : ∃ a, ident.Represents v a) : ¬ident.Oversized v := by
  cases ident with
  | signed w =>
    rintro ⟨n, k, rfl, hw, hout⟩
    obtain ⟨_, n', k', heq, -, hin, hv⟩ := hfit
    obtain rfl := Value.number.inj heq
    exact hout (eq_of_value hw hv ▸ hin)
  | unsigned w =>
    rintro ⟨n, k, rfl, hw, hout⟩
    obtain ⟨_, n', k', heq, -, hin, hv⟩ := hfit
    obtain rfl := Value.number.inj heq
    exact hout (eq_of_value hw hv ▸ hin)
  | f64 =>
    rintro ⟨n, k, rfl, hw, hout⟩
    obtain ⟨_, n', bits, heq, -, -, hv⟩ := hfit
    obtain rfl := Value.number.inj heq
    exact hout _ (hv.trans (value_of_written hw))
  | _ => exact fun h => h

theorem read_of_represents (hfit : ∃ a, ident.Represents v a) (hfloat : ¬ident.WrittenAsFloat v) : ident.Read v := by
  cases ident with
  | string => exact hfit.elim fun _ ⟨s, hv, _⟩ => ⟨s, hv⟩
  | signed w =>
    obtain ⟨_, n, k, rfl, -, hin, hv⟩ := hfit
    rcases hw : written n with _ | k'
    · exact absurd ⟨n, rfl, hw⟩ hfloat
    · obtain rfl := eq_of_value hw hv
      refine ⟨n, k', rfl, hw, lt_of_lt_of_le hin.2 ?_⟩
      cases w <;> simp [Width.bits]
  | unsigned w =>
    obtain ⟨_, n, k, rfl, -, hin, hv⟩ := hfit
    rcases hw : written n with _ | k'
    · exact absurd ⟨n, rfl, hw⟩ hfloat
    · obtain rfl := eq_of_value hw hv
      exact ⟨n, k', rfl, hw, hin.1⟩
  | f64 => exact hfit.elim fun _ ⟨n, _, hv, _⟩ => ⟨n, hv⟩
  | bool => exact hfit.elim fun _ ⟨b, hv, _⟩ => ⟨b, hv⟩
  | _ => exact hfit.elim fun _ h => h.elim

theorem not_writtenAsFloat (hread : ident.Read v) : ¬ident.WrittenAsFloat v := by
  cases ident with
  | signed w =>
    rintro ⟨n, rfl, hnone⟩
    obtain ⟨n', k, heq, hw, -⟩ := hread
    obtain rfl := Value.number.inj heq
    exact absurd (hnone.symm.trans hw) (by simp)
  | unsigned w =>
    rintro ⟨n, rfl, hnone⟩
    obtain ⟨n', k, heq, hw, -⟩ := hread
    obtain rfl := Value.number.inj heq
    exact absurd (hnone.symm.trans hw) (by simp)
  | _ => exact fun h => h

end Scalars

/-! ## Values and items -/

def Ty.Read (ty : Ty) (v : Value) : Prop :=
  match ty with
  | .path .vec (some (.path ident _)) => ∃ items, v = .array items ∧ ∀ item ∈ items, ident.Read item
  | .path ident _ => ident.Read v
  | .other => False

/-- The value, or an item of it, is of some kind. -/
def Ty.Has (P : Ident → Value → Prop) (ty : Ty) (v : Value) : Prop :=
  match ty with
  | .path .vec (some (.path ident _)) => ∃ items, v = .array items ∧ ∃ item ∈ items, P ident item
  | .path ident _ => P ident v
  | .other => False

section Types

variable {narrow : UInt64 → UInt32} {ident : Ident} {name : String} {ty : Ty} {v : Value} {a : Arg}

theorem mapM_eq_ok_iff {α β : Type} {f : α → Except String β} {xs : List α} {ys : List β} :
    xs.mapM f = .ok ys ↔ List.Forall₂ (fun x y => f x = .ok y) xs ys := by
  induction xs generalizing ys with
  | nil => cases ys <;> simp [pure, Except.pure]
  | cons x xs ih =>
    rw [List.mapM_cons, List.forall₂_cons_left_iff]
    rcases hx : f x with e | y
    · simp [bind, Except.bind]
    · rcases hxs : xs.mapM f with e | ys'
      · have hnone : ∀ ys, ¬List.Forall₂ (fun x y => f x = .ok y) xs ys := fun ys h =>
          absurd (hxs.symm.trans (@ih ys |>.mpr h)) (by simp)
        simp [bind, Except.bind, hnone]
      · have hall : ∀ ys, List.Forall₂ (fun x y => f x = .ok y) xs ys ↔ ys' = ys := fun ys => by
          rw [← @ih ys, hxs, Except.ok.injEq]
        simp [bind, Except.bind, pure, Except.pure, hall, eq_comm]

theorem okOr_eq_ok {α : Type} {msg : String} {x : Option α} {y : α} : okOr msg x = .ok y ↔ x = some y := by
  cases x <;> simp [okOr]

theorem exists_forall₂ {α β : Type} {R : α → β → Prop} {xs : List α} (h : ∀ x ∈ xs, ∃ y, R x y) :
    ∃ ys, List.Forall₂ R xs ys := by
  induction xs with
  | nil => exact ⟨[], .nil⟩
  | cons x xs ih =>
    obtain ⟨y, hy⟩ := h x List.mem_cons_self
    obtain ⟨ys, hys⟩ := ih fun z hz => h z (List.mem_cons_of_mem _ hz)
    exact ⟨y :: ys, .cons hy hys⟩

theorem exists_of_forall₂ {α β : Type} {R : α → β → Prop} {xs : List α} {ys : List β} (h : List.Forall₂ R xs ys) :
    ∀ x ∈ xs, ∃ y, R x y := by
  induction h with
  | nil => exact fun _ hx => nomatch hx
  | cons hy _ ih => exact List.forall_mem_cons.mpr ⟨⟨_, hy⟩, ih⟩

theorem forall₂_of_exact {α β : Type} {R S : α → β → Prop} {xs : List α} {ys : List β} (h : List.Forall₂ R xs ys)
    (hexact : ∀ x ∈ xs, ∀ y, R x y → S x y) : List.Forall₂ S xs ys := by
  induction h with
  | nil => exact .nil
  | cons hy _ ih =>
    rw [List.forall_mem_cons] at hexact
    exact .cons (hexact.1 _ hy) (ih hexact.2)

theorem extractExpr_plain (hp : ident.Plain) {inner : Option Ty} :
    extractExpr narrow name (.path ident inner) v = .ok a ↔ readItem narrow ident v = some a := by
  cases ident with
  | vec => exact hp.elim
  | _ => exact okOr_eq_ok

theorem extractExpr_vec {inner : Option Ty} :
    extractExpr narrow name (.path .vec (some (.path ident inner))) v = .ok a ↔
      ∃ items as, v = .array items ∧ a = .vec as ∧
        List.Forall₂ (fun item y => readItem narrow ident item = some y) items as := by
  have hitem : ∀ item y, generateVecItemExtraction narrow (.path ident inner) item = .ok y ↔
      readItem narrow ident item = some y := fun item y => okOr_eq_ok
  cases v with
  | array items =>
    rw [extractExpr]
    constructor
    · intro h
      rcases hm : items.mapM (generateVecItemExtraction narrow (.path ident inner)) with e | as
      · rw [hm] at h
        exact nomatch h
      · rw [hm] at h
        refine ⟨items, as, rfl, (Except.ok.inj h).symm, ?_⟩
        exact (mapM_eq_ok_iff.mp hm).imp fun item y => (hitem item y).mp
    · rintro ⟨items', as, heq, rfl, has⟩
      obtain rfl := Value.array.inj heq
      rw [mapM_eq_ok_iff.mpr (has.imp fun item y => (hitem item y).mpr)]
      rfl
  | _ => simp [extractExpr]

theorem read_plain (hp : ident.Plain) {inner : Option Ty} : Ty.Read (.path ident inner) v ↔ ident.Read v := by
  cases ident with
  | vec => exact hp.elim
  | _ => rfl

theorem has_plain (hp : ident.Plain) {P : Ident → Value → Prop} {inner : Option Ty} :
    Ty.Has P (.path ident inner) v ↔ P ident v := by
  cases ident with
  | vec => exact hp.elim
  | _ => rfl

theorem exists_extractExpr (hs : ty.Supported) : (∃ a, extractExpr narrow name ty v = .ok a) ↔ ty.Read v := by
  cases hs with
  | plain hp => simp only [extractExpr_plain hp, exists_readItem hp, read_plain hp]
  | vec hp =>
    simp only [extractExpr_vec, Ty.Read]
    constructor
    · rintro ⟨_, items, as, hv, -, has⟩
      exact ⟨items, hv, fun item hitem => (exists_readItem hp).mp (exists_of_forall₂ has item hitem)⟩
    · rintro ⟨items, hv, hall⟩
      have hitems : ∀ item ∈ items, ∃ y, readItem narrow _ item = some y := fun item hitem =>
        (exists_readItem hp).mpr (hall item hitem)
      obtain ⟨as, has⟩ := exists_forall₂ hitems
      exact ⟨_, items, as, hv, rfl, has⟩

theorem represents_plain (hp : ident.Plain) {inner : Option Ty} :
    Represents (.path ident inner) v a ↔ ident.Represents v a := by
  cases ident with
  | vec => exact hp.elim
  | _ => rfl

/-- What is acceptable is passed on as it is. -/
theorem extractExpr_exact (hs : ty.Supported) (ha : extractExpr narrow name ty v = .ok a)
    (hfit : ∃ a', Represents ty v a') : Represents ty v a := by
  cases hs with
  | plain hp =>
    simp only [represents_plain hp] at hfit ⊢
    exact readItem_exact ((extractExpr_plain hp).mp ha) hfit
  | vec hp =>
    obtain ⟨items, as, rfl, rfl, has⟩ := extractExpr_vec.mp ha
    obtain ⟨_, items', as', heq, -, has'⟩ := hfit
    obtain rfl := Value.array.inj heq
    exact ⟨items, as, rfl, rfl, forall₂_of_exact has fun item hitem y hy =>
      readItem_exact hy (exists_of_forall₂ has' item hitem)⟩

theorem exists_represents_of_read (hs : ty.Supported) (hread : ty.Read v) (hsize : ¬ty.Has Ident.Oversized v) :
    ∃ a, Represents ty v a := by
  cases hs with
  | plain hp =>
    rw [read_plain hp] at hread
    rw [has_plain hp] at hsize
    simpa only [represents_plain hp] using represents_of_read hread hsize
  | vec hp =>
    obtain ⟨items, hv, hall⟩ := hread
    obtain ⟨as, has⟩ := exists_forall₂ fun item hitem =>
      represents_of_read (hall item hitem) fun hover => hsize ⟨items, hv, item, hitem, hover⟩
    exact ⟨.vec as, items, as, hv, rfl, has⟩

theorem read_of_exists_represents (hs : ty.Supported) (hfit : ∃ a, Represents ty v a)
    (hfloat : ¬ty.Has Ident.WrittenAsFloat v) : ty.Read v := by
  cases hs with
  | plain hp =>
    rw [read_plain hp]
    rw [has_plain hp] at hfloat
    simp only [represents_plain hp] at hfit
    exact read_of_represents hfit hfloat
  | vec hp =>
    obtain ⟨_, items, as, hv, -, has⟩ := hfit
    exact ⟨items, hv, fun item hitem =>
      read_of_represents (exists_of_forall₂ has item hitem) fun h => hfloat ⟨items, hv, item, hitem, h⟩⟩

theorem not_has_oversized (hs : ty.Supported) (hfit : ∃ a, Represents ty v a) : ¬ty.Has Ident.Oversized v := by
  cases hs with
  | plain hp =>
    rw [has_plain hp]
    simp only [represents_plain hp] at hfit
    exact not_oversized hfit
  | vec hp =>
    rintro ⟨items, rfl, item, hitem, hover⟩
    obtain ⟨_, items', as, heq, -, has⟩ := hfit
    obtain rfl := Value.array.inj heq
    exact not_oversized (exists_of_forall₂ has item hitem) hover

theorem not_has_float (hs : ty.Supported) (hread : ty.Read v) : ¬ty.Has Ident.WrittenAsFloat v := by
  cases hs with
  | plain hp =>
    rw [has_plain hp]
    exact not_writtenAsFloat ((read_plain hp).mp hread)
  | vec hp =>
    rintro ⟨items, rfl, item, hitem, hfloat⟩
    obtain ⟨items', heq, hall⟩ := hread
    obtain rfl := Value.array.inj heq
    exact not_writtenAsFloat (hall item hitem) hfloat

theorem conforms_plain (hp : ident.Plain) {inner : Option Ty} (h : ident.Represents v a) :
    Conforms (typeToJsonSchema (.path ident inner)) v := by
  cases ident with
  | string =>
    obtain ⟨s, rfl, -⟩ := h
    exact .string s (by rw [typeToJsonSchema]; rfl)
  | signed w =>
    obtain ⟨n, k, rfl, -, -, hv⟩ := h
    exact .integer n k (by rw [typeToJsonSchema]; rfl) hv
  | unsigned w =>
    obtain ⟨n, k, rfl, -, -, hv⟩ := h
    exact .integer n k (by rw [typeToJsonSchema]; rfl) hv
  | f64 =>
    obtain ⟨n, bits, rfl, -⟩ := h
    exact .number n (by rw [typeToJsonSchema]; rfl)
  | bool =>
    obtain ⟨b, rfl, -⟩ := h
    exact .boolean b (by rw [typeToJsonSchema]; rfl)
  | _ => exact hp.elim

theorem conforms_of_represents (hs : ty.Supported) (h : Represents ty v a) : Conforms (typeToJsonSchema ty) v := by
  cases hs with
  | plain hp => exact conforms_plain hp ((represents_plain hp).mp h)
  | vec hp =>
    obtain ⟨items, as, rfl, -, has⟩ := h
    rw [typeToJsonSchema]
    refine .array items rfl fun item hitem => ?_
    obtain ⟨a, ha⟩ := exists_of_forall₂ has item hitem
    exact conforms_plain hp ha

theorem fitting_iff (hs : ty.Supported) : Fitting ty v ↔ ∃ a, Represents ty v a :=
  ⟨fun h => h.2, fun ⟨a, ha⟩ => ⟨conforms_of_represents hs ha, a, ha⟩⟩

theorem not_read_null (hs : ty.Supported) : ¬ty.Read .null := by
  cases hs with
  | @plain ident hp =>
    rw [read_plain hp]
    cases ident with
    | string | signed _ | unsigned _ | f64 | bool => simp [Ident.Read]
    | _ => exact hp.elim
  | vec hp => simp [Ty.Read]

end Types

/-! ## Parameters -/

/-- The argument can be read: an optional one may be null, and a missing one counts as null. -/
def Param.Reads (p : Param) (args : Value) : Prop :=
  (p.isOptional ∧ args.index p.name = .null) ∨ p.base.Read (args.index p.name)

/-- Something holds of all parts of the argument, by the type they are read as. -/
def Param.Has (P : Ident → Value → Prop) (p : Param) (args : Value) : Prop := p.base.Has P (args.index p.name)

section Params

variable {narrow : UInt64 → UInt32} {p : Param} {args : Value} {a : Arg}

/-- What the generated code does for a parameter. -/
def Param.extract (narrow : UInt64 → UInt32) (args : Value) (p : Param) : Except String Arg :=
  generateParamExtraction narrow p.name p.base p.isOptional args

theorem index_eq_null_iff {v : Value} {key : String} :
    v.index key = .null ↔ v.get key = none ∨ v.get key = some .null := by
  rw [Value.index]
  rcases v.get key with _ | w <;> simp

theorem index_eq {v w : Value} {key : String} (hne : w ≠ .null) : v.index key = w ↔ v.get key = some w := by
  rw [Value.index]
  rcases v.get key with _ | w'
  · simp [hne.symm]
  · simp

theorem extract_eq (hs : p.Supported) : p.extract narrow args =
    if p.isOptional then
      if args.index p.name = .null then .ok .none else (extractExpr narrow p.name p.base (args.index p.name)).map .some
    else extractExpr narrow p.name p.base (args.index p.name) := by
  obtain ⟨ident, inner, hbase⟩ : ∃ ident inner, p.base = .path ident inner := by
    cases hs with
    | required hty => cases hty with
      | @plain ident hp => cases ident <;> exact ⟨_, _, rfl⟩
      | vec hp => exact ⟨_, _, rfl⟩
    | optional hty => cases hty with
      | plain hp => exact ⟨_, _, rfl⟩
      | vec hp => exact ⟨_, _, rfl⟩
  unfold Param.extract generateParamExtraction
  rw [hbase]

theorem base_supported (hs : p.Supported) : p.base.Supported := by
  cases hs with
  | required hty => cases hty with
    | @plain ident hp => cases ident <;> exact .plain hp
    | vec hp => exact .vec hp
  | optional hty => exact hty

theorem exists_extract (hs : p.Supported) : (∃ a, p.extract narrow args = .ok a) ↔ p.Reads args := by
  have hexpr := @exists_extractExpr narrow p.name p.base (args.index p.name) (base_supported hs)
  have hnull := @not_read_null p.base (base_supported hs)
  rw [extract_eq hs, Param.Reads]
  split_ifs with hopt hv
  · simp [hopt, hv]
  · simp only [hopt, hv, and_false, false_or]
    rw [← hexpr]
    constructor
    · rintro ⟨a, ha⟩
      rcases he : extractExpr narrow p.name p.base (args.index p.name) with e | a'
      · rw [he] at ha
        exact nomatch ha
      · exact ⟨a', rfl⟩
    · rintro ⟨a, ha⟩
      exact ⟨.some a, by rw [ha]; rfl⟩
  · simp only [hopt, Bool.false_eq_true, false_and, false_or]
    exact hexpr

theorem ne_null_of_represents {ty : Ty} {v : Value} (hs : ty.Supported) (h : Represents ty v a) : v ≠ .null := by
  rintro rfl
  exact nomatch conforms_of_represents hs h

theorem acceptable_iff (hs : p.Supported) : p.Acceptable args ↔
    (p.isOptional ∧ args.index p.name = .null) ∨ ∃ a, Represents p.base (args.index p.name) a := by
  have hbase := base_supported hs
  rw [Param.Acceptable, index_eq_null_iff]
  refine or_congr Iff.rfl ⟨?_, ?_⟩
  · rintro ⟨v, hv, hfit⟩
    obtain ⟨a, ha⟩ := (fitting_iff hbase).mp hfit
    rw [(index_eq (ne_null_of_represents hbase ha)).mpr hv]
    exact ⟨a, ha⟩
  · rintro ⟨a, ha⟩
    exact ⟨_, (index_eq (ne_null_of_represents hbase ha)).mp rfl, (fitting_iff hbase).mpr ⟨a, ha⟩⟩

/-- The tool receives what is extracted. -/
theorem receives_of_extract (hs : p.Supported) (ha : p.extract narrow args = .ok a) (hacc : p.Acceptable args) :
    p.Receives args a := by
  have hbase := base_supported hs
  rw [extract_eq hs] at ha
  rw [acceptable_iff hs] at hacc
  rw [Param.Receives]
  split_ifs at ha ⊢ with hopt hnull
  · obtain rfl := Except.ok.inj ha
    exact Or.inl ⟨index_eq_null_iff.mp hnull, rfl⟩
  · have hfit := hacc.resolve_left fun h => hnull h.2
    rcases he : extractExpr narrow p.name p.base (args.index p.name) with e | a'
    · rw [he] at ha
      exact nomatch ha
    · rw [he] at ha
      obtain rfl := Except.ok.inj ha
      have hrep := extractExpr_exact hbase he hfit
      exact Or.inr ⟨_, a', (index_eq (ne_null_of_represents hbase hrep)).mp rfl, hrep, rfl⟩
  · have hrep := extractExpr_exact hbase ha (hacc.resolve_left fun h => hopt h.1)
    exact ⟨_, (index_eq (ne_null_of_represents hbase hrep)).mp rfl, hrep⟩

/-! ### What is read, and what is acceptable -/

theorem acceptable_of_reads (hs : p.Supported) (hread : p.Reads args) (hsize : ¬p.Has Ident.Oversized args) :
    p.Acceptable args :=
  (acceptable_iff hs).mpr (hread.imp_right fun h => exists_represents_of_read (base_supported hs) h hsize)

theorem reads_of_acceptable (hs : p.Supported) (hacc : p.Acceptable args) (hfloat : ¬p.Has Ident.WrittenAsFloat args) :
    p.Reads args :=
  ((acceptable_iff hs).mp hacc).imp_right fun h => read_of_exists_represents (base_supported hs) h hfloat

theorem not_has_null {P : Ident → Value → Prop} (hs : p.Supported) (hP : ∀ ident, ¬P ident .null)
    (hnull : args.index p.name = .null) : ¬p.Has P args := by
  have hbase := base_supported hs
  rw [Param.Has, hnull]
  generalize p.base = ty at hbase
  cases hbase with
  | plain hp => exact (has_plain hp).not.mpr (hP _)
  | vec hp => simp [Ty.Has]

theorem not_oversized_of_acceptable (hs : p.Supported) (hacc : p.Acceptable args) : ¬p.Has Ident.Oversized args := by
  obtain ⟨-, hnull⟩ | hfit := (acceptable_iff hs).mp hacc
  · exact not_has_null hs (fun ident => by cases ident <;> simp [Ident.Oversized]) hnull
  · exact not_has_oversized (base_supported hs) hfit

theorem not_float_of_reads (hs : p.Supported) (hread : p.Reads args) : ¬p.Has Ident.WrittenAsFloat args := by
  obtain ⟨-, hnull⟩ | hread := hread
  · exact not_has_null hs (fun ident => by cases ident <;> simp [Ident.WrittenAsFloat]) hnull
  · exact not_has_float (base_supported hs) hread

end Params

/-! ## Calls -/

section Exactness

variable {narrow : UInt64 → UInt32} {params : List Param} {args : Value} {xs : List Arg}

theorem dispatch_eq_ok : dispatch narrow params args = .ok xs ↔
    List.Forall₂ (fun p a => p.extract narrow args = .ok a) params xs := mapM_eq_ok_iff

theorem calls_of_dispatch (h : dispatch narrow params args = .ok xs) : Calls narrow params args xs := fun original => by
  rw [mcpTool, h]
  rfl

theorem refuses_of_dispatch {msg : String} (h : dispatch narrow params args = .error msg) :
    Refuses narrow params args := ⟨msg, fun original => by rw [mcpTool, h]; rfl⟩

theorem exists_dispatch (hs : ∀ p ∈ params, p.Supported) :
    (∃ xs, dispatch narrow params args = .ok xs) ↔ ∀ p ∈ params, p.Reads args := by
  constructor
  · rintro ⟨xs, hxs⟩ p hp
    exact (exists_extract (hs p hp)).mp (exists_of_forall₂ (dispatch_eq_ok.mp hxs) p hp)
  · intro h
    have hall : ∀ p ∈ params, ∃ a, p.extract narrow args = .ok a := fun p hp => (exists_extract (hs p hp)).mpr (h p hp)
    exact (exists_forall₂ hall).imp fun xs hxs => dispatch_eq_ok.mpr hxs

theorem not_refuses (h : ∀ p ∈ params, p.Reads args) (hs : ∀ p ∈ params, p.Supported) :
    ¬Refuses narrow params args := by
  rintro ⟨msg, hmsg⟩
  obtain ⟨xs, hxs⟩ := (@exists_dispatch narrow params args hs).mpr h
  exact absurd ((calls_of_dispatch hxs fun _ => .ok "").symm.trans (hmsg _)) (by simp)

theorem exact_iff (hs : ∀ p ∈ params, p.Supported) :
    Exact narrow params args ↔ ((∀ p ∈ params, p.Reads args) ↔ ∀ p ∈ params, p.Acceptable args) := by
  constructor
  · rintro ⟨hcalls, hrefuses⟩
    constructor
    · exact fun hread => by_contra fun hacc => not_refuses hread hs (hrefuses hacc)
    · intro hacc
      obtain ⟨xs, hxs, -⟩ := hcalls hacc
      rw [← @exists_dispatch narrow params args hs]
      rcases hd : dispatch narrow params args with msg | ys
      · have hmsg : mcpTool narrow params (fun _ => .ok "") args = .error msg := by rw [mcpTool, hd]; rfl
        exact absurd ((hxs _).symm.trans hmsg) (by simp)
      · exact ⟨ys, rfl⟩
  · intro h
    constructor
    · intro hacc
      obtain ⟨xs, hxs⟩ := (@exists_dispatch narrow params args hs).mpr (h.mpr hacc)
      exact ⟨xs, calls_of_dispatch hxs, forall₂_of_exact (dispatch_eq_ok.mp hxs) fun p hp a ha =>
        receives_of_extract (hs p hp) ha (hacc p hp)⟩
    · intro hacc
      rcases hd : dispatch narrow params args with msg | ys
      · exact refuses_of_dispatch hd
      · exact absurd (h.mp ((exists_dispatch hs).mp ⟨ys, hd⟩)) hacc

/-- **When the tool is called with exactly the arguments of the request, or not at all.**  Whenever everything is read,
no integer is too large for its type; and whenever everything is acceptable, no integer is written as a float. -/
theorem mcpTool_exact_iff (narrow : UInt64 → UInt32) (params : List Param) (hs : ∀ p ∈ params, p.Supported)
    (fields : List (String × Value)) :
    Exact narrow params (.object fields) ↔
      ((∀ p ∈ params, p.Reads (.object fields)) → ∀ p ∈ params, ¬p.Has Ident.Oversized (.object fields)) ∧
      ((∀ p ∈ params, p.Acceptable (.object fields)) → ∀ p ∈ params, ¬p.Has Ident.WrittenAsFloat (.object fields)) := by
  rw [exact_iff hs]
  constructor
  · intro h
    exact ⟨fun hread p hp => not_oversized_of_acceptable (hs p hp) (h.mp hread p hp),
      fun hacc p hp => not_float_of_reads (hs p hp) (h.mpr hacc p hp)⟩
  · rintro ⟨hsize, hfloat⟩
    exact ⟨fun hread p hp => acceptable_of_reads (hs p hp) (hread p hp) (hsize hread p hp),
      fun hacc p hp => reads_of_acceptable (hs p hp) (hacc p hp) (hfloat hacc p hp)⟩

end Exactness

/-- A parameter `n: u8`. -/
def byteParam : Param := ⟨"n", .path (.unsigned .w8) none⟩

def numberArgs (n : UInt64) : List (String × Value) := [("n", .number (.posInt n))]

theorem byteParam_supported : ∀ p ∈ [byteParam], p.Supported :=
  List.forall_mem_singleton.mpr (.required (.plain trivial))

/-- 44 arrives as 44. -/
theorem mcpTool_exact_byte : Exact (fun _ => 0) [byteParam] (.object (numberArgs 44)) := by
  refine (mcpTool_exact_iff _ _ byteParam_supported _).mpr
    ⟨fun _ => List.forall_mem_singleton.mpr ?_, fun _ => List.forall_mem_singleton.mpr ?_⟩
  · rintro ⟨n, k, hn, hw, hout⟩
    obtain rfl : Number.posInt 44 = n := Value.number.inj hn
    obtain rfl : (44 : ℤ) = k := Option.some.inj hw
    exact hout ⟨by norm_num, by norm_num [Width.bits]⟩
  · rintro ⟨n, hn, hw⟩
    obtain rfl : Number.posInt 44 = n := Value.number.inj hn
    exact nomatch hw

/-- 300 arrives as 44. -/
theorem byte_wrapped :
    Calls (fun _ => 0) [byteParam] (.object (numberArgs 300)) [.int 44] ∧
      ¬Exact (fun _ => 0) [byteParam] (.object (numberArgs 300)) := by
  refine ⟨calls_of_dispatch rfl, fun h => ?_⟩
  rw [exact_iff byteParam_supported] at h
  have hread : ∀ p ∈ [byteParam], p.Reads (.object (numberArgs 300)) :=
    List.forall_mem_singleton.mpr (Or.inr ⟨.posInt 300, 300, rfl, rfl, by norm_num⟩)
  have hacc := h.mp hread byteParam List.mem_cons_self
  refine not_oversized_of_acceptable (byteParam_supported _ List.mem_cons_self) hacc ⟨.posInt 300, 300, rfl, rfl, ?_⟩
  rintro ⟨-, hlt⟩
  norm_num [Width.bits] at hlt

end VelocityMcp.Macros
