import Mathlib.Data.List.Forall2
import VelocityMcp.Json

/-!
# Wire — the TLV format, apart from the programs that walk it

`Tlv.Fits`: every length and count fits its field.  `Tlv.Within d`: in addition, at most `d` nested
levels and the server's limits on strings and counts.
-/

namespace VelocityMcp

open Lib

/-- `TLV_MAX_DEPTH`. -/
def tlvMaxDepth : ℕ := 32

/-- `TLV_MAX_STRING_LEN`. -/
def tlvMaxStringLen : ℕ := 10000000

/-- `TLV_MAX_ELEMENTS`. -/
def tlvMaxElements : ℕ := 100000

/-- One value on the wire, strings and object keys as the raw bytes they are. -/
inductive Tlv where
  | string (t : Bytes)
  | int (i : Int64)
  | bool (b : UInt8)
  | null
  | array (items : List Tlv)
  | object (entries : List (Bytes × Tlv))
  | float (bits : UInt64)

/-- The bytes of a string or of a key that are no valid UTF-8. -/
inductive BadUtf8 where
  | string (t : Bytes)
  | key (t : Bytes)
deriving DecidableEq, Repr

@[grind =] def BadUtf8.bytes : BadUtf8 → Bytes
  | string t => t
  | key t => t

namespace Tlv

/-! ## Encoding -/

mutual

/-- The encoding of a value. -/
@[grind =] def bytes : Tlv → Bytes
  | string t => 0x01 :: (beBytes 4 t.length ++ t)
  | int i => 0x02 :: beBytes 8 i.toUInt64.toNat
  | bool b => [0x03, b]
  | null => [0x04]
  | array items => 0x05 :: (beBytes 4 items.length ++ itemsBytes items)
  | object entries => 0x06 :: (beBytes 4 entries.length ++ entriesBytes entries)
  | float bits => 0x07 :: beBytes 8 bits.toNat

def itemsBytes : List Tlv → Bytes
  | [] => []
  | t :: ts => bytes t ++ itemsBytes ts

def entriesBytes : List (Bytes × Tlv) → Bytes
  | [] => []
  | (k, t) :: es => beBytes 2 k.length ++ (k ++ (bytes t ++ entriesBytes es))

end

theorem length_bytes_string (t : Bytes) : (string t).bytes.length = 5 + t.length := by
  simp only [bytes, List.length_cons, List.length_append, length_beBytes]
  omega

theorem length_bytes_array (items : List Tlv) :
    (array items).bytes.length = 5 + (itemsBytes items).length := by
  simp only [bytes, List.length_cons, List.length_append, length_beBytes]
  omega

theorem length_bytes_object (entries : List (Bytes × Tlv)) :
    (object entries).bytes.length = 5 + (entriesBytes entries).length := by
  simp only [bytes, List.length_cons, List.length_append, length_beBytes]
  omega

theorem bytes_ne_nil (t : Tlv) : t.bytes ≠ [] := by
  cases t <;> simp [bytes]

/-! ## Meaning -/

mutual

/-- The JSON value, or the first string or key that is no valid UTF-8. -/
@[grind =] def value : Tlv → Except BadUtf8 Value
  | string t => match fromUtf8 t with
    | some s => .ok (.string s)
    | none => .error (.string t)
  | int i => .ok (.number (.ofI64 i))
  | bool b => .ok (.bool (b != 0))
  | null => .ok .null
  | array items => (itemsValue items).map .array
  | object entries => (entriesValue entries).map fun ps => .object (insertAll [] ps)
  | float bits => .ok (.ofF64 bits)

@[grind =] def itemsValue : List Tlv → Except BadUtf8 (List Value)
  | [] => .ok []
  | t :: ts => match value t with
    | .ok v => (itemsValue ts).map (v :: ·)
    | .error e => .error e

/-- The pairs of an object in wire order, repeated keys included. -/
@[grind =] def entriesValue : List (Bytes × Tlv) → Except BadUtf8 (List (String × Value))
  | [] => .ok []
  | (k, t) :: es => match fromUtf8 k with
    | none => .error (.key k)
    | some key => match value t with
      | .ok v => (entriesValue es).map ((key, v) :: ·)
      | .error e => .error e

end

/-- `u` is one of the strings or keys of the tree. -/
inductive HasText (u : Bytes) : Tlv → Prop
  | string : HasText u (string u)
  | item {items : List Tlv} {t : Tlv} (mem : t ∈ items) (text : HasText u t) : HasText u (array items)
  | key {entries : List (Bytes × Tlv)} {t : Tlv} (mem : (u, t) ∈ entries) : HasText u (object entries)
  | field {entries : List (Bytes × Tlv)} {e : Bytes × Tlv} (mem : e ∈ entries) (text : HasText u e.2) :
      HasText u (object entries)

/-! ## Limits -/

/-- Every length and count fits its field. -/
inductive Fits : Tlv → Prop
  | string {t : Bytes} (len : t.length < 256 ^ 4) : Fits (string t)
  | int (i : Int64) : Fits (int i)
  | bool (b : UInt8) : Fits (bool b)
  | null : Fits null
  | array {items : List Tlv} (count : items.length < 256 ^ 4) (item : ∀ t ∈ items, Fits t) :
      Fits (array items)
  | object {entries : List (Bytes × Tlv)} (count : entries.length < 256 ^ 4)
      (key : ∀ e ∈ entries, e.1.length < 256 ^ 2) (item : ∀ e ∈ entries, Fits e.2) :
      Fits (object entries)
  | float (bits : UInt64) : Fits (float bits)

/-- At most `d` nested levels, and the server's limits on strings and counts. -/
inductive Within : ℕ → Tlv → Prop
  | string {d : ℕ} {t : Bytes} (len : t.length ≤ tlvMaxStringLen) : Within (d + 1) (string t)
  | int {d : ℕ} (i : Int64) : Within (d + 1) (int i)
  | bool {d : ℕ} (b : UInt8) : Within (d + 1) (bool b)
  | null {d : ℕ} : Within (d + 1) null
  | array {d : ℕ} {items : List Tlv} (count : items.length ≤ tlvMaxElements)
      (item : ∀ t ∈ items, Within d t) : Within (d + 1) (array items)
  | object {d : ℕ} {entries : List (Bytes × Tlv)} (count : entries.length ≤ tlvMaxElements)
      (key : ∀ e ∈ entries, e.1.length < 256 ^ 2) (item : ∀ e ∈ entries, Within d e.2) :
      Within (d + 1) (object entries)
  | float {d : ℕ} (bits : UInt64) : Within (d + 1) (float bits)

theorem Within.fits {d : ℕ} {t : Tlv} (h : t.Within d) : t.Fits := by
  induction h with
  | string len => exact .string (lt_of_le_of_lt len (by decide))
  | int i => exact .int i
  | bool b => exact .bool b
  | null => exact .null
  | array count _ ih => exact .array (lt_of_le_of_lt count (by decide)) ih
  | object count key _ ih => exact .object (lt_of_le_of_lt count (by decide)) key ih
  | float bits => exact .float bits

theorem Within.mono {d : ℕ} {t : Tlv} (h : t.Within d) : ∀ {d' : ℕ}, d ≤ d' → t.Within d' := by
  induction h with
  | string len => rintro (_ | d') hd; exacts [absurd hd (by omega), .string len]
  | int i => rintro (_ | d') hd; exacts [absurd hd (by omega), .int i]
  | bool b => rintro (_ | d') hd; exacts [absurd hd (by omega), .bool b]
  | null => rintro (_ | d') hd; exacts [absurd hd (by omega), .null]
  | array count _ ih =>
    rintro (_ | d') hd
    exacts [absurd hd (by omega), .array count fun t ht => ih t ht (by omega)]
  | object count key _ ih =>
    rintro (_ | d') hd
    exacts [absurd hd (by omega), .object count key fun e he => ih e he (by omega)]
  | float bits => rintro (_ | d') hd; exacts [absurd hd (by omega), .float bits]

/-! ## From the wire: what a decoded value satisfies -/

theorem itemsValue_cons_eq_ok {t : Tlv} {ts : List Tlv} {vs : List Value} :
    itemsValue (t :: ts) = .ok vs ↔
      ∃ v ws, t.value = .ok v ∧ itemsValue ts = .ok ws ∧ vs = v :: ws := by
  rw [itemsValue]
  cases t.value with
  | error e => simp
  | ok v => cases itemsValue ts <;> simp [Except.map, eq_comm]

theorem entriesValue_cons_eq_ok {k : Bytes} {t : Tlv} {es : List (Bytes × Tlv)}
    {ps : List (String × Value)} :
    entriesValue ((k, t) :: es) = .ok ps ↔
      ∃ key v qs, fromUtf8 k = some key ∧ t.value = .ok v ∧ entriesValue es = .ok qs ∧
        ps = (key, v) :: qs := by
  rw [entriesValue]
  cases fromUtf8 k with
  | none => simp
  | some key =>
    cases t.value with
    | error e => simp
    | ok v => cases entriesValue es <;> simp [Except.map, eq_comm]

theorem value_string_eq_ok {u : Bytes} {v : Value} :
    (string u).value = .ok v ↔ ∃ s, fromUtf8 u = some s ∧ v = .string s := by
  rw [value]
  cases fromUtf8 u <;> simp [eq_comm]

theorem value_array_eq_ok {ts : List Tlv} {v : Value} :
    (array ts).value = .ok v ↔ ∃ vs, itemsValue ts = .ok vs ∧ v = .array vs := by
  rw [value]
  cases itemsValue ts <;> simp [Except.map, eq_comm]

theorem value_object_eq_ok {es : List (Bytes × Tlv)} {v : Value} :
    (object es).value = .ok v ↔ ∃ ps, entriesValue es = .ok ps ∧ v = .object (insertAll [] ps) := by
  rw [value]
  cases entriesValue es <;> simp [Except.map, eq_comm]

theorem itemsValue_eq_ok {ts : List Tlv} {vs : List Value} :
    itemsValue ts = .ok vs ↔ List.Forall₂ (fun t v => t.value = .ok v) ts vs := by
  induction ts generalizing vs with
  | nil => rw [itemsValue, Except.ok.injEq, List.forall₂_nil_left_iff, eq_comm]
  | cons t ts ih => simp only [itemsValue_cons_eq_ok, List.forall₂_cons_left_iff, ih]

theorem entriesValue_eq_ok {es : List (Bytes × Tlv)} {ps : List (String × Value)} :
    entriesValue es = .ok ps ↔
      List.Forall₂ (fun e p => fromUtf8 e.1 = some p.1 ∧ e.2.value = .ok p.2) es ps := by
  induction es generalizing ps with
  | nil => rw [entriesValue, Except.ok.injEq, List.forall₂_nil_left_iff, eq_comm]
  | cons e es ih =>
    obtain ⟨k, t⟩ := e
    rw [entriesValue_cons_eq_ok, List.forall₂_cons_left_iff]
    constructor
    · rintro ⟨key, v, qs, hk, hv, hqs, rfl⟩
      exact ⟨(key, v), qs, ⟨hk, hv⟩, ih.mp hqs, rfl⟩
    · rintro ⟨⟨key, v⟩, qs, ⟨hk, hv⟩, hqs, rfl⟩
      exact ⟨key, v, qs, hk, hv, ih.mpr hqs, rfl⟩

theorem itemsValue_eq_error {ts : List Tlv} {e : BadUtf8} (h : itemsValue ts = .error e) :
    ∃ t ∈ ts, t.value = .error e := by
  induction ts with
  | nil => simp [itemsValue] at h
  | cons t ts ih =>
    rw [itemsValue] at h
    cases ht : t.value with
    | error e' =>
      rw [ht] at h
      obtain rfl := Except.error.inj h
      exact ⟨t, List.mem_cons_self, ht⟩
    | ok v =>
      cases hts : itemsValue ts with
      | ok vs => rw [ht, hts] at h; simp [Except.map] at h
      | error e' =>
        rw [ht, hts] at h
        obtain ⟨t', ht', hv⟩ := ih (by rw [hts]; exact h)
        exact ⟨t', List.mem_cons_of_mem _ ht', hv⟩

theorem entriesValue_eq_error {es : List (Bytes × Tlv)} {x : BadUtf8} (h : entriesValue es = .error x) :
    (∃ e ∈ es, fromUtf8 e.1 = none ∧ x = .key e.1) ∨ ∃ e ∈ es, e.2.value = .error x := by
  induction es with
  | nil => simp [entriesValue] at h
  | cons e es ih =>
    obtain ⟨k, t⟩ := e
    rw [entriesValue] at h
    cases hk : fromUtf8 k with
    | none =>
      rw [hk] at h
      exact Or.inl ⟨(k, t), List.mem_cons_self, hk, (Except.error.inj h).symm⟩
    | some key =>
      cases ht : t.value with
      | error e' =>
        rw [hk, ht] at h
        obtain rfl := Except.error.inj h
        exact Or.inr ⟨(k, t), List.mem_cons_self, ht⟩
      | ok v =>
        cases hes : entriesValue es with
        | ok ps => rw [hk, ht, hes] at h; simp [Except.map] at h
        | error e' =>
          rw [hk, ht, hes] at h
          rcases ih (by rw [hes]; exact h) with ⟨e, he, hv⟩ | ⟨e, he, hv⟩
          · exact Or.inl ⟨e, List.mem_cons_of_mem _ he, hv⟩
          · exact Or.inr ⟨e, List.mem_cons_of_mem _ he, hv⟩

theorem hasText_of_value_eq_error {d : ℕ} {t : Tlv} (h : t.Within d) {e : BadUtf8}
    (hv : t.value = .error e) : t.HasText e.bytes ∧ fromUtf8 e.bytes = none := by
  induction h with
  | @string d t len =>
    rw [value] at hv
    split at hv
    · exact absurd hv (by simp)
    · next hn =>
      obtain rfl := Except.error.inj hv
      exact ⟨.string, hn⟩
  | int i => exact absurd hv (by simp [value])
  | bool b => exact absurd hv (by simp [value])
  | null => exact absurd hv (by simp [value])
  | @array d items count _ ih =>
    rw [value] at hv
    cases hts : itemsValue items with
    | ok vs => rw [hts] at hv; exact absurd hv (by simp [Except.map])
    | error e' =>
      rw [hts, Except.map] at hv
      obtain rfl := Except.error.inj hv
      obtain ⟨t, ht, htv⟩ := itemsValue_eq_error hts
      obtain ⟨htext, hbad⟩ := ih t ht htv
      exact ⟨.item ht htext, hbad⟩
  | @object d entries count key _ ih =>
    rw [value] at hv
    cases hes : entriesValue entries with
    | ok vs => rw [hes] at hv; exact absurd hv (by simp [Except.map])
    | error e' =>
      rw [hes, Except.map] at hv
      obtain rfl := Except.error.inj hv
      rcases entriesValue_eq_error hes with ⟨x, hx, hbad, rfl⟩ | ⟨x, hx, hxv⟩
      · exact ⟨HasText.key hx, hbad⟩
      · obtain ⟨htext, hbad⟩ := ih x hx hxv
        exact ⟨.field hx htext, hbad⟩
  | float bits => exact absurd hv (by simp [value])

theorem exists_mem_of_forall₂ {α β : Type} {R : α → β → Prop} {xs : List α} {ys : List β}
    (h : List.Forall₂ R xs ys) {y : β} (hy : y ∈ ys) : ∃ x ∈ xs, R x y := by
  induction h with
  | nil => simp at hy
  | cons hxy _ ih =>
    rcases List.mem_cons.mp hy with rfl | hy
    · exact ⟨_, List.mem_cons_self, hxy⟩
    · obtain ⟨x, hx, hR⟩ := ih hy
      exact ⟨x, List.mem_cons_of_mem _ hx, hR⟩

/-- The limits a decoded value keeps, at every level. -/
def Bounded (v : Value) : Prop :=
  v.StringLe tlvMaxStringLen ∧ v.EntriesLe tlvMaxElements ∧ v.IntFits

/-- **What comes off the wire keeps the limits** of the wire tree, and has ordered maps. -/
theorem value_limits {d : ℕ} {t : Tlv} (h : t.Within d) :
    ∀ {v : Value}, t.value = .ok v → v.depth < d ∧ v.All Bounded ∧ v.WF := by
  induction h with
  | @string d t len =>
    intro v hv
    obtain ⟨s, hs, rfl⟩ := value_string_eq_ok.mp hv
    refine ⟨Nat.succ_pos d, ⟨?_, trivial, trivial⟩, trivial⟩
    show (utf8 s).length ≤ tlvMaxStringLen
    rwa [utf8_of_fromUtf8 hs]
  | @int d i =>
    intro v hv
    rw [value, Except.ok.injEq] at hv
    subst hv
    exact ⟨Nat.succ_pos d, ⟨trivial, trivial, Value.intFits_ofI64 i⟩, trivial⟩
  | @bool d b =>
    intro v hv
    rw [value, Except.ok.injEq] at hv
    subst hv
    exact ⟨Nat.succ_pos d, ⟨trivial, trivial, trivial⟩, trivial⟩
  | @null d =>
    intro v hv
    rw [value, Except.ok.injEq] at hv
    subst hv
    exact ⟨Nat.succ_pos d, ⟨trivial, trivial, trivial⟩, trivial⟩
  | @array d items count _ ih =>
    intro v hv
    obtain ⟨vs, hvs, rfl⟩ := value_array_eq_ok.mp hv
    have hall := itemsValue_eq_ok.mp hvs
    have hlen : items.length = vs.length := hall.length_eq
    have hin : ∀ v ∈ vs, v.depth < d ∧ v.All Bounded ∧ v.WF := fun v hv => by
      obtain ⟨t, ht, htv⟩ := exists_mem_of_forall₂ hall hv
      exact ih t ht htv
    refine ⟨Nat.lt_succ_of_le (Value.depth_array_le.mpr fun v hv => (hin v hv).1),
      Value.all_array.mpr ⟨⟨trivial, ?_, trivial⟩, fun v hv => (hin v hv).2.1⟩,
      Value.all_array.mpr ⟨trivial, fun v hv => (hin v hv).2.2⟩⟩
    show vs.length ≤ tlvMaxElements
    omega
  | @object d entries count key _ ih =>
    intro v hv
    obtain ⟨ps, hps, rfl⟩ := value_object_eq_ok.mp hv
    have hall := entriesValue_eq_ok.mp hps
    have hlen : entries.length = ps.length := hall.length_eq
    have hle := length_insertAll_le [] ps
    have hin : ∀ p ∈ insertAll [] ps, p.2.depth < d ∧ p.2.All Bounded ∧ p.2.WF := fun p hp => by
      have hp' : p ∈ ps := (mem_insertAll hp).resolve_left (List.not_mem_nil)
      obtain ⟨e, he, -, hev⟩ := exists_mem_of_forall₂ hall hp'
      exact ih e he hev
    refine ⟨Nat.lt_succ_of_le (Value.depth_object_le.mpr fun p hp => (hin p hp).1),
      Value.all_object.mpr ⟨⟨trivial, ?_, trivial⟩, fun p hp => (hin p hp).2.1⟩,
      Value.all_object.mpr ⟨SortedKeys.insertAll List.Pairwise.nil ps, fun p hp => (hin p hp).2.2⟩⟩
    show (insertAll [] ps).length ≤ tlvMaxElements
    rw [List.length_nil] at hle
    omega
  | @float d bits =>
    intro v hv
    rw [value, Except.ok.injEq, Value.ofF64] at hv
    split_ifs at hv <;> subst hv <;>
      exact ⟨Nat.succ_pos d, ⟨trivial, trivial, trivial⟩, trivial⟩

/-! ## To the wire -/

mutual

/-- How a JSON value is put on the wire: an integer above `i64::MAX` as a float. -/
@[grind =] def ofValue : Value → Tlv
  | .null => null
  | .bool b => bool (if b then 1 else 0)
  | .number n => match n.asI64 with
    | some i => int i
    | none => match n.asF64 with
      | some f => float f
      | none => int 0
  | .string s => string (utf8 s)
  | .array items => array (ofItems items)
  | .object fields => object (ofFields fields)

def ofItems : List Value → List Tlv
  | [] => []
  | v :: vs => ofValue v :: ofItems vs

def ofFields : List (String × Value) → List (Bytes × Tlv)
  | [] => []
  | (k, v) :: fs => (utf8 k, ofValue v) :: ofFields fs

end

theorem ofItems_eq_map (vs : List Value) : ofItems vs = vs.map ofValue := by
  induction vs with
  | nil => rfl
  | cons v vs ih => rw [ofItems, ih, List.map_cons]

theorem ofFields_eq_map (fs : List (String × Value)) :
    ofFields fs = fs.map fun p => (utf8 p.1, ofValue p.2) := by
  induction fs with
  | nil => rfl
  | cons p fs ih => rw [ofFields, ih, List.map_cons]

mutual

/-- The value that is read back: an integer above `i64::MAX` has become a float. -/
@[grind =] def onWire : Value → Value
  | .number (.posInt n) =>
    if n ≤ Number.i64Max then .number (.posInt n) else .ofF64 (f64OfNat n.toNat)
  | .array items => .array (itemsOnWire items)
  | .object fields => .object (fieldsOnWire fields)
  | v => v

def itemsOnWire : List Value → List Value
  | [] => []
  | v :: vs => onWire v :: itemsOnWire vs

def fieldsOnWire : List (String × Value) → List (String × Value)
  | [] => []
  | (k, v) :: fs => (k, onWire v) :: fieldsOnWire fs

end

theorem itemsOnWire_eq_map (vs : List Value) : itemsOnWire vs = vs.map onWire := by
  induction vs with
  | nil => rfl
  | cons v vs ih => rw [itemsOnWire, ih, List.map_cons]

theorem fieldsOnWire_eq_map (fs : List (String × Value)) :
    fieldsOnWire fs = fs.map fun p => (p.1, onWire p.2) := by
  induction fs with
  | nil => rfl
  | cons p fs ih => rw [fieldsOnWire, ih, List.map_cons]

theorem onWire_eq_self {v : Value} (h : v.All Value.IntFits) : onWire v = v := by
  induction v with
  | null => rfl
  | bool b => rfl
  | number n =>
    cases n with
    | posInt n =>
      have hn : n ≤ Number.i64Max := h
      rw [onWire, if_pos hn]
    | negInt i neg => rfl
    | float bits fin => rfl
  | string s => rfl
  | array items ih =>
    rw [Value.all_array] at h
    rw [onWire, itemsOnWire_eq_map, List.map_congr_left fun v hv => ih v hv (h.2 v hv), List.map_id']
  | object fields ih =>
    rw [Value.all_object] at h
    have hfields : ∀ p ∈ fields, ((p.1, onWire p.2) : String × Value) = p := fun p hp => by
      rw [ih p hp (h.2 p hp)]
    rw [onWire, fieldsOnWire_eq_map, List.map_congr_left hfields, List.map_id']

theorem value_ofNumber (n : Number) : (ofValue (.number n)).value = .ok (onWire (.number n)) := by
  cases n with
  | posInt n =>
    by_cases h : n ≤ Number.i64Max
    · simp [ofValue, Number.asI64, h, value, Number.ofI64_toInt64 h, onWire]
    · simp [ofValue, Number.asI64, Number.asF64, h, value, onWire]
  | negInt i neg => simp [ofValue, Number.asI64, value, Number.ofI64, neg, onWire]
  | float bits fin => simp [ofValue, Number.asI64, Number.asF64, value, Value.ofF64, fin, onWire]

/-- With distinct keys in order, a value on the wire stands for itself, up to its large integers. -/
theorem value_ofValue {v : Value} (hv : v.WF) : (ofValue v).value = .ok (onWire v) := by
  induction v with
  | null => rfl
  | bool b => cases b <;> rfl
  | number n => exact value_ofNumber n
  | string s => simp [ofValue, value, onWire]
  | array items ih =>
    rw [Value.WF, Value.all_array] at hv
    have hitems : itemsValue (ofItems items) = .ok (itemsOnWire items) := by
      rw [itemsValue_eq_ok, ofItems_eq_map, itemsOnWire_eq_map, List.forall₂_map_left_iff,
        List.forall₂_map_right_iff, List.forall₂_same]
      exact fun w hw => ih w hw (hv.2 w hw)
    rw [ofValue, value, hitems, Except.map, onWire]
  | object fields ih =>
    rw [Value.WF, Value.all_object] at hv
    have hfields : entriesValue (ofFields fields) = .ok (fieldsOnWire fields) := by
      rw [entriesValue_eq_ok, ofFields_eq_map, fieldsOnWire_eq_map, List.forall₂_map_left_iff,
        List.forall₂_map_right_iff, List.forall₂_same]
      exact fun p hp => ⟨fromUtf8_utf8 p.1, ih p hp (hv.2 p hp)⟩
    have hsorted : SortedKeys ([] ++ fieldsOnWire fields) := by
      rw [List.nil_append, fieldsOnWire_eq_map]
      exact List.pairwise_map.mpr hv.1
    rw [ofValue, value, hfields, Except.map, insertAll_of_sortedKeys hsorted, List.nil_append, onWire]

/-! ## Trees that are read as a value -/

/-- The lengths fit, and all texts are UTF-8. -/
def Whole (t : Tlv) : Prop := t.Fits ∧ ∃ v, t.value = .ok v

theorem whole_null : null.Whole := ⟨.null, .null, rfl⟩

theorem whole_array {ts : List Tlv} (count : ts.length < 256 ^ 4) (hts : ∀ t ∈ ts, t.Whole) :
    (array ts).Whole := by
  refine ⟨.array count fun t ht => (hts t ht).1, ?_⟩
  cases hvs : itemsValue ts with
  | ok vs => exact ⟨.array vs, value_array_eq_ok.mpr ⟨vs, hvs, rfl⟩⟩
  | error e =>
    obtain ⟨t, ht, hte⟩ := itemsValue_eq_error hvs
    obtain ⟨v, hv⟩ := (hts t ht).2
    rw [hv] at hte
    exact absurd hte (by simp)

theorem whole_object {es : List (Bytes × Tlv)} (count : es.length < 256 ^ 4)
    (hkey : ∀ e ∈ es, e.1.length < 256 ^ 2 ∧ ∃ s, fromUtf8 e.1 = some s) (hes : ∀ e ∈ es, e.2.Whole) :
    (object es).Whole := by
  refine ⟨.object count (fun e he => (hkey e he).1) fun e he => (hes e he).1, ?_⟩
  cases hps : entriesValue es with
  | ok ps => exact ⟨.object (insertAll [] ps), value_object_eq_ok.mpr ⟨ps, hps, rfl⟩⟩
  | error x =>
    rcases entriesValue_eq_error hps with ⟨e, he, hnone, -⟩ | ⟨e, he, hex⟩
    · obtain ⟨s, hs⟩ := (hkey e he).2
      rw [hs] at hnone
      exact absurd hnone (by simp)
    · obtain ⟨v, hv⟩ := (hes e he).2
      rw [hv] at hex
      exact absurd hex (by simp)

theorem whole_ofValue {v : Value} (hs : v.Sized) (hk : v.All (Value.KeysLe 65535)) : (ofValue v).Whole := by
  induction v with
  | null => exact whole_null
  | bool b => exact ⟨.bool _, _, rfl⟩
  | number n => exact ⟨by rw [ofValue]; split; exacts [.int _, by split; exacts [.float _, .int 0]],
      _, value_ofNumber n⟩
  | string s =>
    have hlen : (utf8 s).length ≤ 256 ^ 4 - 1 := hs.1
    exact ⟨.string (by omega), .string s, by simp [ofValue, value]⟩
  | array items ih =>
    rw [Value.Sized, Value.all_array] at hs
    rw [Value.all_array] at hk
    have hlen : items.length ≤ 256 ^ 4 - 1 := hs.1.2
    rw [ofValue, ofItems_eq_map]
    refine whole_array (by rw [List.length_map]; omega) fun t ht => ?_
    obtain ⟨v, hv, rfl⟩ := List.mem_map.mp ht
    exact ih v hv (hs.2 v hv) (hk.2 v hv)
  | object fields ih =>
    rw [Value.Sized, Value.all_object] at hs
    rw [Value.all_object] at hk
    have hlen : fields.length ≤ 256 ^ 4 - 1 := hs.1.2
    rw [ofValue, ofFields_eq_map]
    refine whole_object (by rw [List.length_map]; omega) (fun e he => ?_) fun e he => ?_
    · obtain ⟨p, hp, rfl⟩ := List.mem_map.mp he
      exact ⟨lt_of_le_of_lt (hk.1 p hp) (by decide), p.1, fromUtf8_utf8 p.1⟩
    · obtain ⟨p, hp, rfl⟩ := List.mem_map.mp he
      exact ih p hp (hs.2 p hp) (hk.2 p hp)

/-! ## What the length of an encoding says -/

theorem length_le_of_mem_items {ts : List Tlv} {t : Tlv} (h : t ∈ ts) :
    t.bytes.length ≤ (itemsBytes ts).length := by
  induction ts with
  | nil => simp at h
  | cons u us ih =>
    rw [itemsBytes, List.length_append]
    rcases List.mem_cons.mp h with rfl | h
    · exact Nat.le_add_right _ _
    · exact (ih h).trans (Nat.le_add_left _ _)

theorem length_le_itemsBytes (ts : List Tlv) : ts.length ≤ (itemsBytes ts).length := by
  induction ts with
  | nil => exact Nat.zero_le _
  | cons t ts ih =>
    have hpos := List.length_pos_iff.mpr t.bytes_ne_nil
    rw [itemsBytes, List.length_append, List.length_cons]
    omega

theorem length_le_of_mem_entries {es : List (Bytes × Tlv)} {e : Bytes × Tlv} (h : e ∈ es) :
    e.1.length ≤ (entriesBytes es).length ∧ e.2.bytes.length ≤ (entriesBytes es).length := by
  induction es with
  | nil => simp at h
  | cons x xs ih =>
    obtain ⟨k, t⟩ := x
    simp only [entriesBytes, List.length_append]
    rcases List.mem_cons.mp h with rfl | h
    · simp only
      omega
    · have hle := ih h
      omega

theorem length_le_entriesBytes (es : List (Bytes × Tlv)) : es.length ≤ (entriesBytes es).length := by
  induction es with
  | nil => exact Nat.zero_le _
  | cons x xs ih =>
    obtain ⟨k, t⟩ := x
    simp only [entriesBytes, List.length_append, length_beBytes, List.length_cons]
    omega

theorem limits_of_length {v : Value} {n : ℕ} (h : (ofValue v).bytes.length ≤ n) :
    v.All fun w => w.StringLe n ∧ w.EntriesLe n ∧ w.KeysLe n := by
  induction v with
  | null => exact ⟨trivial, trivial, trivial⟩
  | bool b => exact ⟨trivial, trivial, trivial⟩
  | number m => exact ⟨trivial, trivial, trivial⟩
  | string s =>
    rw [ofValue, length_bytes_string] at h
    exact ⟨by show (utf8 s).length ≤ n; omega, trivial, trivial⟩
  | array items ih =>
    rw [ofValue, length_bytes_array, ofItems_eq_map] at h
    have hcount := length_le_itemsBytes (items.map ofValue)
    rw [List.length_map] at hcount
    refine Value.all_array.mpr ⟨⟨trivial, by show items.length ≤ n; omega, trivial⟩, fun v hv => ih v hv ?_⟩
    have hle := length_le_of_mem_items (List.mem_map_of_mem (f := ofValue) hv)
    omega
  | object fields ih =>
    rw [ofValue, length_bytes_object, ofFields_eq_map] at h
    have hcount := length_le_entriesBytes (fields.map fun p => (utf8 p.1, ofValue p.2))
    rw [List.length_map] at hcount
    have hmem : ∀ p ∈ fields, (utf8 p.1).length ≤ n ∧ (ofValue p.2).bytes.length ≤ n := fun p hp => by
      have hle := length_le_of_mem_entries (List.mem_map_of_mem (f := fun p => (utf8 p.1, ofValue p.2)) hp)
      simp only at hle
      omega
    exact Value.all_object.mpr ⟨⟨trivial, by show fields.length ≤ n; omega, fun p hp => (hmem p hp).1⟩,
      fun p hp => ih p hp (hmem p hp).2⟩

theorem within_ofValue {v : Value} : ∀ {d : ℕ}, v.depth < d →
    (v.All fun w => w.StringLe tlvMaxStringLen ∧ w.EntriesLe tlvMaxElements) → v.All (Value.KeysLe 65535) →
    (ofValue v).Within d := by
  induction v with
  | null => rintro (_ | d) hd - -; exacts [absurd hd (by omega), .null]
  | bool b => rintro (_ | d) hd - -; exacts [absurd hd (by omega), .bool _]
  | number n =>
    rintro (_ | d) hd - -
    · exact absurd hd (by omega)
    · rw [ofValue]
      split
      · exact .int _
      · split
        · exact .float _
        · exact .int 0
  | string s => rintro (_ | d) hd hb -; exacts [absurd hd (by omega), .string hb.1]
  | array items ih =>
    rintro (_ | d) hd hb hk
    · exact absurd hd (by omega)
    · rw [Value.all_array] at hb hk
      have hdepth := Value.depth_array_le.mp (Nat.lt_succ_iff.mp hd)
      rw [ofValue, ofItems_eq_map]
      refine .array (by rw [List.length_map]; exact hb.1.2) fun t ht => ?_
      obtain ⟨v, hv, rfl⟩ := List.mem_map.mp ht
      exact ih v hv (hdepth v hv) (hb.2 v hv) (hk.2 v hv)
  | object fields ih =>
    rintro (_ | d) hd hb hk
    · exact absurd hd (by omega)
    · rw [Value.all_object] at hb hk
      have hdepth := Value.depth_object_le.mp (Nat.lt_succ_iff.mp hd)
      rw [ofValue, ofFields_eq_map]
      refine .object (by rw [List.length_map]; exact hb.1.2) (fun e he => ?_) fun e he => ?_
      · obtain ⟨p, hp, rfl⟩ := List.mem_map.mp he
        exact lt_of_le_of_lt (hk.1 p hp) (by decide)
      · obtain ⟨p, hp, rfl⟩ := List.mem_map.mp he
        exact ih p hp (hdepth p hp) (hb.2 p hp) (hk.2 p hp)

end Tlv

end VelocityMcp
