import VelocityMcp.Guest.LuaEncoder

/-!
# Guest.LuaRoundTrip — `json_decode(json_encode(v))` of the Lua guest

`round_trips_iff`: when this is `v` again.
-/

namespace VelocityMcp.Guest.LuaEncoder

open Lib

/-! ## The decoder -/

mutual

/-- What `jp_parse_value` puts on the stack for it fits into so many slots. -/
def fits : ℕ → Raw → Bool
  | n, .nil => 0 < n
  | n, .boolean _ => 0 < n
  | n, .number _ _ => 0 < n
  | n, .string _ => 0 < n
  | n, .array items => 0 < n && itemsFit (n - 1) items
  | n, .object members => 0 < n && membersFit (n - 2) members

def itemsFit (n : ℕ) : List Raw → Bool
  | [] => true
  | r :: rs => fits n r && itemsFit n rs

/-- The values lie above their table and their key. -/
def membersFit (n : ℕ) : List (Option Bytes × Raw) → Bool
  | [] => true
  | (_, r) :: ms => fits n r && membersFit n ms

end

/-- `c_json_decode`. -/
def jsonDecode (strtod : Strtod) (slots : ℕ) (s : Bytes) : Run Unit LuaValue :=
  if fits slots (parse false s) then .done (jpParseValue strtod s).value else .undefined

/-! ## Equality -/

def luaKey : Key → Option LuaKey
  | .integer k => if 0 ≤ k.toInt then some (.index k.toInt.toNat) else none
  | .string s => some (.string s)
  | _ => none

def lookUp (content : LuaTable) (k : Key) : Option LuaValue := (luaKey k).bind content

/-- The two are equal: an integer equals a float of the same value, and tables are equal by what they hold. -/
inductive Same : Val → LuaValue → Prop
  | boolean (b : Bool) : Same (.boolean b) (.boolean b)
  | integer (i : Int64) : Same (.integer i) (.integer i)
  | number (bits : UInt64) : Same (.number bits) (.number bits)
  | whole (bits : UInt64) (i : Int64) (h : binary64 bits.toNat = i.toInt) : Same (.number bits) (.integer i)
  | string (s : Bytes) : Same (.string s) (.string s)
  | table (entries : List (Key × Val)) (content : LuaTable) (found : Key × Val → LuaValue)
      (hfound : ∀ e ∈ entries, lookUp content e.1 = some (found e)) (hsame : ∀ e ∈ entries, Same e.2 (found e))
      (hall : ∀ k w, content k = some w → ∃ e ∈ entries, luaKey e.1 = some k) : Same (.table entries) (.table content)

/-- What the value is decoded as. -/
def back (g17 : F64Text) (strtod : Strtod) (v : Val) : LuaValue := (jpRead strtod (rawOf g17 v)).value

/-- A string without control characters that are written as code points; a table whose keys are so, and whose entries
come in their order if it is a sequence. -/
def Kept : Val → Prop
  | .string s => Plain s
  | .table entries => (IsSequence entries → isArrayTable entries = true) ∧
      ∀ e ∈ entries, ∀ s, e.1 = .string s → Plain s
  | _ => True

section Back

variable {g17 : F64Text} {strtod : Strtod}

theorem back_array {entries : List (Key × Val)} (h : isArrayTable entries = true) :
    back g17 strtod (.table entries) = .table (arrayTable (entries.map fun e => back g17 strtod e.2)) := by
  rw [back, rawOf, if_pos h, rawItems_eq_map, jpRead, jpItems_eq_map, LuaRead.value, LuaRead.itemsValue_eq_map,
    storeItems_eq_arrayTable, List.map_map, List.map_map]
  rfl

def backEntry (g17 : F64Text) (strtod : Strtod) (e : Key × Val) : LuaKey × Option LuaValue :=
  (.string (spoken (keyBytes e.1)), (back g17 strtod e.2).stored)

theorem back_object {entries : List (Key × Val)} (h : isArrayTable entries = false) :
    back g17 strtod (.table entries) = .table (storeAll emptyTable (entries.map (backEntry g17 strtod))) := by
  rw [back, rawOf, if_neg (by rw [h]; decide), rawMembers_eq_map, jpRead, jpMembers_eq_map, LuaRead.value,
    LuaRead.membersValue_eq_map, storeMembers, List.map_map, List.map_map, List.map_map]
  rfl

theorem stored_back {n : ℕ} {v : Val} (h : Encodable n v) :
    (back g17 strtod v).stored = some (back g17 strtod v) := by
  cases h with
  | boolean => rfl
  | integer => rfl
  | number m bits hfin =>
    rw [back, rawOf, jpRead]
    split_ifs <;> rfl
  | string => rfl
  | table m entries hkeys hentries =>
    cases harray : isArrayTable entries with
    | true => rw [back_array harray]; rfl
    | false => rw [back_object harray]; rfl

/-! ### Keys -/

theorem isArrayFrom_iff {n : ℕ} {entries : List (Key × Val)} :
    isArrayFrom n entries = true ↔
      ∀ i, ∀ e, entries[i]? = some e → ∃ k : Int64, e.1 = .integer k ∧ k.toInt = (n + i : ℕ) := by
  induction entries generalizing n with
  | nil => simp [isArrayFrom]
  | cons e es ih =>
    obtain ⟨key, v⟩ := e
    constructor
    · intro h i d hd
      cases key with
      | integer k =>
        rw [isArrayFrom, Bool.and_eq_true, decide_eq_true_iff] at h
        cases i with
        | zero =>
          obtain rfl := Option.some.inj hd
          exact ⟨k, rfl, h.1⟩
        | succ i =>
          obtain ⟨l, hl, hval⟩ := ih.mp h.2 i d hd
          exact ⟨l, hl, by rw [hval]; congr 1; omega⟩
      | _ => exact absurd h (by simp [isArrayFrom])
    · intro h
      obtain ⟨k, hk, hval⟩ := h 0 _ rfl
      obtain rfl : key = .integer k := hk
      rw [isArrayFrom, Bool.and_eq_true, decide_eq_true_iff]
      refine ⟨hval, ih.mpr fun i d hd => ?_⟩
      obtain ⟨l, hl, hlval⟩ := h (i + 1) d hd
      exact ⟨l, hl, by rw [hlval]; congr 1; omega⟩

theorem lookUp_integer {content : LuaTable} {k : Int64} {i : ℕ} (h : k.toInt = i) :
    lookUp content (.integer k) = content (.index i) := by
  rw [lookUp, luaKey, if_pos (by omega), Option.bind_some, show k.toInt.toNat = i by omega]

theorem lookUp_string (content : LuaTable) (s : Bytes) : lookUp content (.string s) = content (.string s) := rfl

theorem storeAll_backEntry_index (entries : List (Key × Val)) (i : ℕ) :
    storeAll emptyTable (entries.map (backEntry g17 strtod)) (.index i) = none := by
  refine storeAll_of_notMem (fun e he => ?_) emptyTable
  obtain ⟨d, -, rfl⟩ := List.mem_map.mp he
  exact LuaKey.noConfusion

/-! ### Sequences -/

theorem IsSequence.range {entries : List (Key × Val)} (h : IsSequence entries) {e : Key × Val} (he : e ∈ entries) :
    ∃ (k : Int64) (i : ℕ), e.1 = .integer k ∧ k.toInt = (i + 1 : ℕ) ∧ i < entries.length := by
  obtain ⟨is, hkeys, hperm⟩ := h
  have hmem := List.mem_map_of_mem (f := Prod.fst) he
  rw [hkeys] at hmem
  obtain ⟨k, hk, hkey⟩ := List.mem_map.mp hmem
  obtain ⟨i, hi, hval⟩ := List.mem_map.mp (hperm.subset (List.mem_map_of_mem (f := Int64.toInt) hk))
  exact ⟨k, i, hkey.symm, by rw [← hval]; push_cast; rfl, List.mem_range.mp hi⟩

theorem not_same_of_unordered {entries : List (Key × Val)} (hseq : IsSequence entries)
    (harray : isArrayTable entries = false) : ¬Same (.table entries) (back g17 strtod (.table entries)) := by
  intro hsame
  rw [back_object harray] at hsame
  cases hsame with
  | table _ _ found hfound _ _ =>
    cases entries with
    | nil => exact nomatch harray
    | cons e es =>
      obtain ⟨k, i, hk, hval, -⟩ := hseq.range List.mem_cons_self
      have hnone := hfound e List.mem_cons_self
      rw [hk, lookUp_integer hval, storeAll_backEntry_index] at hnone
      exact nomatch hnone

theorem same_array_iff {n : ℕ} {entries : List (Key × Val)} (harray : isArrayTable entries = true)
    (hentries : ∀ e ∈ entries, Encodable n e.2) :
    Same (.table entries) (back g17 strtod (.table entries)) ↔ ∀ e ∈ entries, Same e.2 (back g17 strtod e.2) := by
  have hkeys := isArrayFrom_iff.mp harray
  have hstored : ∀ e ∈ entries, lookUp (arrayTable (entries.map fun e => back g17 strtod e.2)) e.1 =
      some (back g17 strtod e.2) := by
    intro e he
    obtain ⟨i, hi, hget⟩ := List.getElem_of_mem he
    have hsome : entries[i]? = some e := by rw [List.getElem?_eq_getElem hi, hget]
    obtain ⟨k, hk, hval⟩ := hkeys i e hsome
    rw [hk, lookUp_integer (i := i + 1) (by rw [hval]; congr 1; omega), arrayTable, List.getElem?_map, hsome,
      Option.map_some, Option.bind_some, stored_back (hentries e he)]
  rw [back_array harray]
  constructor
  · intro hsame e he
    cases hsame with
    | table _ _ found hfound hsame _ =>
      have hfound' := (hfound e he).symm.trans (hstored e he)
      exact Option.some.inj hfound' ▸ hsame e he
  · intro hsame
    refine .table _ _ (fun e => back g17 strtod e.2) hstored hsame fun key w hw => ?_
    rcases key with (_ | i) | s
    · cases hw
    · rw [arrayTable, List.getElem?_map] at hw
      obtain ⟨u, hu, -⟩ := Option.bind_eq_some_iff.mp hw
      obtain ⟨e, he, -⟩ := Option.map_eq_some_iff.mp hu
      obtain ⟨k, hk, hval⟩ := hkeys i e he
      refine ⟨e, List.mem_of_getElem? he, ?_⟩
      rw [hk, luaKey, if_pos (by omega), show k.toInt.toNat = i + 1 by omega]
    · cases hw

/-! ### Records -/

theorem same_object_iff {n : ℕ} {entries : List (Key × Val)} (hrecord : IsRecord entries)
    (harray : isArrayTable entries = false) (hentries : ∀ e ∈ entries, Encodable n e.2) :
    Same (.table entries) (back g17 strtod (.table entries)) ↔
      (∀ e ∈ entries, ∀ s, e.1 = .string s → Plain s) ∧ ∀ e ∈ entries, Same e.2 (back g17 strtod e.2) := by
  have hstored : (∀ e ∈ entries, ∀ s, e.1 = .string s → Plain s) → ∀ e ∈ entries,
      lookUp (storeAll emptyTable (entries.map (backEntry g17 strtod))) e.1 = some (back g17 strtod e.2) := by
    intro hplain e he
    obtain ⟨s, hs⟩ := hrecord.1 e he
    obtain ⟨before, after, hsplit⟩ := List.append_of_mem he
    have hother : ∀ d ∈ after.map (backEntry g17 strtod), d.1 ≠ .string s := by
      intro d hd
      obtain ⟨c, hc, rfl⟩ := List.mem_map.mp hd
      have hmem : c ∈ entries := by
        rw [hsplit]
        exact List.mem_append_right _ (List.mem_cons_of_mem _ hc)
      obtain ⟨t, ht⟩ := hrecord.1 c hmem
      intro heq
      have hts : t = s := by
        have hspoken := LuaKey.string.inj heq
        rwa [ht, keyBytes, plain_iff.mp (hplain c hmem t ht)] at hspoken
      have hnodup := hrecord.2
      rw [hsplit, List.map_append, List.map_cons, List.nodup_append, List.nodup_cons] at hnodup
      apply hnodup.2.1.1
      rw [hs, ← hts, ← ht]
      exact List.mem_map_of_mem hc
    have hentry : backEntry g17 strtod e = (.string s, some (back g17 strtod e.2)) := by
      rw [backEntry, hs, keyBytes, plain_iff.mp (hplain e he s hs), stored_back (hentries e he)]
    rw [hs, lookUp_string, hsplit, List.map_append, List.map_cons, hentry]
    exact storeAll_of_mem hother emptyTable _
  rw [back_object harray]
  constructor
  · intro hsame
    cases hsame with
    | table _ _ found hfound hsame _ =>
      have hplain : ∀ e ∈ entries, ∀ s, e.1 = .string s → Plain s := by
        intro e he s hs
        have hmem := hfound e he
        rw [hs, lookUp_string] at hmem
        obtain ⟨d, -, hd⟩ := List.mem_map.mp (mem_of_storeAll hmem)
        rw [← LuaKey.string.inj (Prod.mk.inj hd).1]
        exact plain_spoken _
      refine ⟨hplain, fun e he => ?_⟩
      have hfound' := (hfound e he).symm.trans (hstored hplain e he)
      exact Option.some.inj hfound' ▸ hsame e he
  · rintro ⟨hplain, hsame⟩
    refine .table _ _ (fun e => back g17 strtod e.2) (hstored hplain) hsame fun key w hw => ?_
    obtain ⟨e, he, hentry⟩ := List.mem_map.mp (mem_of_storeAll hw)
    obtain ⟨s, hs⟩ := hrecord.1 e he
    refine ⟨e, he, ?_⟩
    rw [← (Prod.mk.inj hentry).1, hs, luaKey, keyBytes, plain_iff.mp (hplain e he s hs)]

/-! ### Numbers -/

theorem same_double {bits : UInt64} (h : FloatsPrint g17 strtod (.number bits)) :
    Same (.number bits) (back g17 strtod (.number bits)) := by
  obtain ⟨sign, whole, fraction, exponent, hnum, heq, -, hvalue⟩ := h
  have hback : back g17 strtod (.number bits) =
      if pointed (g17 bits) then .number (strtod (g17 bits)) else .integer (strtoll (g17 bits)) := rfl
  rw [hback, heq, pointed_eq hnum, ← heq]
  by_cases hwhole : fraction = [] ∧ exponent = []
  · rw [if_pos hwhole] at hvalue
    obtain ⟨rfl, rfl⟩ := hwhole
    rw [List.append_nil, List.append_nil] at heq
    have hlt : decimalValue whole < 2 ^ 63 :=
      (decimalValue_lt hnum.whole.2).trans_le ((Nat.pow_le_pow_right (by decide) hvalue.1).trans (by decide))
    refine .whole _ _ ?_
    rw [hvalue.2, heq]
    rcases hnum.sign with rfl | rfl
    · have hhead : whole.head? ≠ some 0x2d := by
        intro hhead
        exact absurd (hnum.whole.2 _ (List.mem_of_mem_head? hhead)) (by decide)
      have hclamp : max (-2 ^ 63 : ℤ) (min (2 ^ 63 - 1) (decimalValue whole)) = decimalValue whole := by omega
      rw [if_pos rfl, List.nil_append, strtoll, if_neg hhead, hclamp, Int64.toInt_ofInt_of_le (by omega) (by omega)]
      norm_cast
    · have hclamp : max (-2 ^ 63 : ℤ) (min (2 ^ 63 - 1) (-(decimalValue whole : ℤ))) = -(decimalValue whole : ℤ) := by omega
      rw [if_neg (by simp), List.singleton_append, strtoll, if_pos List.head?_cons, List.tail_cons, hclamp,
        Int64.toInt_ofInt_of_le (by omega) (by omega)]
      push_cast
      rfl
  · rw [if_neg hwhole] at hvalue
    have hpoint : (fraction ≠ [] || exponent ≠ [] : Bool) = true := by
      simp only [ne_eq, Bool.or_eq_true, decide_eq_true_iff]
      tauto
    rw [hpoint, if_pos rfl, hvalue]
    exact .number bits

/-! ### Values -/

/-- **The decoded value equals the encoded one** if and only if every string and every table in it is kept. -/
theorem same_back_iff {n : ℕ} {v : Val} (h : Encodable n v) (hfloats : v.All (FloatsPrint g17 strtod)) :
    Same v (back g17 strtod v) ↔ v.All Kept := by
  induction h with
  | boolean n b => exact iff_of_true (.boolean b) trivial
  | integer n i =>
    refine iff_of_true ?_ trivial
    have hback : back g17 strtod (.integer i) = .integer (strtoll (integerText i)) := rfl
    rw [hback, strtoll_integerText]
    exact .integer i
  | number n bits hfin => exact iff_of_true (same_double hfloats) trivial
  | string n s =>
    have hback : back g17 strtod (.string s) = .string (spoken s) := rfl
    show Same (.string s) _ ↔ Plain s
    rw [hback, plain_iff]
    constructor
    · intro hsame
      generalize hspoken : spoken s = t at hsame
      cases hsame
      rfl
    · intro hspoken
      rw [hspoken]
      exact .string s
  | table n entries hkeys hentries ih =>
    rw [all_table] at hfloats ⊢
    have hitems : (∀ e ∈ entries, Same e.2 (back g17 strtod e.2)) ↔ ∀ e ∈ entries, e.2.All Kept :=
      forall₂_congr fun e he => ih e he (hfloats.2 e he)
    cases harray : isArrayTable entries with
    | true =>
      have hkept : Kept (.table entries) := by
        refine ⟨fun _ => harray, fun e he s hs => ?_⟩
        obtain ⟨i, hi, hget⟩ := List.getElem_of_mem he
        obtain ⟨k, hk, -⟩ := isArrayFrom_iff.mp harray i e (by rw [List.getElem?_eq_getElem hi, hget])
        rw [hs] at hk
        exact nomatch hk
      rw [same_array_iff harray hentries, hitems]
      exact ⟨fun h => ⟨hkept, h⟩, fun h => h.2⟩
    | false =>
      rcases hkeys with hseq | hrecord
      · refine iff_of_false (not_same_of_unordered hseq harray) fun h => ?_
        exact absurd (h.1.1 hseq) (by rw [harray]; decide)
      · have hnotseq : ¬IsSequence entries := by
          intro hseq
          cases entries with
          | nil => exact nomatch harray
          | cons e es =>
            obtain ⟨k, i, hk, -⟩ := hseq.range List.mem_cons_self
            obtain ⟨s, hs⟩ := hrecord.1 e List.mem_cons_self
            rw [hs] at hk
            exact nomatch hk
        rw [same_object_iff hrecord harray hentries, hitems, Kept]
        simp only [hnotseq, false_imp_iff, true_and]

/-! ### The stack -/

theorem itemsFit_iff {n : ℕ} {rs : List Raw} : itemsFit n rs = true ↔ ∀ r ∈ rs, fits n r = true := by
  induction rs with
  | nil => simp [itemsFit]
  | cons r rs ih => rw [itemsFit, Bool.and_eq_true, ih, List.forall_mem_cons]

theorem membersFit_iff {n : ℕ} {ms : List (Option Bytes × Raw)} :
    membersFit n ms = true ↔ ∀ m ∈ ms, fits n m.2 = true := by
  induction ms with
  | nil => simp [membersFit]
  | cons m ms ih => rw [membersFit, Bool.and_eq_true, ih, List.forall_mem_cons]

theorem mem_encodeItems {depth above : ℕ} {first : Bool} {es : List (Key × Val)} {e : Key × Val} (he : e ∈ es)
    {q : Request} (hq : q ∈ encodeValue g17 (depth + 1) (above + 1) e.2) :
    q ∈ encodeItems g17 depth above first es := by
  induction es generalizing first with
  | nil => exact nomatch he
  | cons d es ih =>
    rw [encodeItems]
    rcases List.mem_cons.mp he with rfl | he
    · exact List.mem_append_left _ (List.mem_append_right _ hq)
    · exact List.mem_append_right _ (ih he)

theorem mem_encodeMembers {depth above : ℕ} {first : Bool} {es : List (Key × Val)} {e : Key × Val} (he : e ∈ es)
    {q : Request} (hq : q ∈ encodeValue g17 (depth + 1) (above + 3) e.2) :
    q ∈ encodeMembers g17 depth above first es := by
  induction es generalizing first with
  | nil => exact nomatch he
  | cons d es ih =>
    rw [encodeMembers]
    rcases List.mem_cons.mp he with rfl | he
    · exact List.mem_append_left _ (List.mem_append_right _ (List.mem_cons_of_mem _ hq))
    · exact List.mem_append_right _ (ih he)

theorem fits_rawOf {n : ℕ} {v : Val} (h : Encodable n v) {slots : ℕ} :
    ∀ {depth above m : ℕ}, depth + n ≤ 32 → HasSlots slots (encodeValue g17 depth above v) → slots - above ≤ m →
      fits m (rawOf g17 v) = true := by
  have hpos {above m : ℕ} {q : Request} (hle : above ≤ q.above) (hq : q.above < slots) (hm : slots - above ≤ m) :
      decide (0 < m) = true := decide_eq_true (by omega)
  induction h with
  | boolean n b =>
    intro depth above m hdepth hslots
    rw [encodeValue, cut_of_le hdepth] at hslots
    exact hpos le_rfl (hslots _ List.mem_cons_self)
  | integer n i =>
    intro depth above m hdepth hslots
    rw [encodeValue, cut_of_le hdepth] at hslots
    exact hpos le_rfl (hslots _ List.mem_cons_self)
  | number n bits hfin =>
    intro depth above m hdepth hslots
    rw [encodeValue, cut_of_le hdepth] at hslots
    exact hpos le_rfl (hslots _ List.mem_cons_self)
  | string n s =>
    intro depth above m hdepth hslots
    rw [encodeValue, cut_of_le hdepth] at hslots
    exact hpos le_rfl (hslots _ List.mem_cons_self)
  | table n entries hkeys hentries ih =>
    intro depth above m hdepth hslots hm
    rw [encodeValue, cut_of_le hdepth] at hslots
    have hlook := hpos (Nat.le_add_right _ _) (hslots _ List.mem_cons_self) hm
    rw [rawOf]
    split_ifs at hslots ⊢ with harray
    · rw [fits, Bool.and_eq_true, itemsFit_iff, rawItems_eq_map]
      refine ⟨hlook, List.forall_mem_map.mpr fun e he => ?_⟩
      refine @ih e he (depth + 1) (above + 1) (m - 1) (by omega) (fun q hq => hslots q ?_) (by omega)
      exact List.mem_cons_of_mem _ (List.mem_cons_of_mem _ (List.mem_append_left _ (mem_encodeItems he hq)))
    · rw [fits, Bool.and_eq_true, membersFit_iff, rawMembers_eq_map]
      refine ⟨hlook, List.forall_mem_map.mpr fun e he => ?_⟩
      refine @ih e he (depth + 1) (above + 3) (m - 2) (by omega) (fun q hq => hslots q ?_) (by omega)
      exact List.mem_cons_of_mem _ (List.mem_cons_of_mem _ (List.mem_append_left _ (mem_encodeMembers he hq)))

end Back

/-! ## The round trip -/

/-- The value comes back from its text as it was, and a sequence that is not empty is written as an array. -/
def RoundTrips (g17 : F64Text) (strtod : Strtod) (slots : ℕ) (v : Val) : Prop :=
  ∃ t w, jsonEncode g17 slots v = .done t ∧ jsonDecode strtod slots t = .done w ∧ Same v w ∧
    ∀ entries, v = .table entries → IsSequence entries → entries ≠ [] → t.head? = some 0x5b

/-- **When `json_decode(json_encode(v))` equals `v`**, for every value of booleans, integers, finite floats, strings,
sequences and tables with string keys, of at most 32 levels, in whatever order the tables are traversed: if and only if
the sequences come in their order, no string has a control character that is written as a code point, the stack is large
enough without being checked, and the buffer only grows while its slot is on the top of the stack. -/
theorem round_trips_iff (g17 : F64Text) (strtod : Strtod) (slots : ℕ) {v : Val} (h : Encodable 32 v)
    (hfloats : v.All (FloatsPrint g17 strtod)) :
    RoundTrips g17 strtod slots v ↔
      v.All Kept ∧ HasSlots slots (encodeValue g17 0 0 v) ∧ GrowsOnTop ⟨[], bufferSize⟩ (encodeValue g17 0 0 v) := by
  have hparse := parse_encodeValue h hfloats
  constructor
  · rintro ⟨t, w, hencode, hdecode, hsame, -⟩
    obtain ⟨b, hrun, hchars⟩ := Run.bind_eq_done.mp hencode
    obtain ⟨hslots, hgrows⟩ := of_run_done hrun
    obtain ⟨size, hdone⟩ := run_done hslots hgrows
    have hb := Run.done.inj (hrun.symm.trans hdone)
    have ht : t = textOf (encodeValue g17 0 0 v) := by rw [← Run.done.inj hchars, hb, List.nil_append]
    rw [jsonDecode, jpParseValue, ht, hparse] at hdecode
    split_ifs at hdecode with hfits
    rw [← Run.done.inj hdecode] at hsame
    exact ⟨(same_back_iff h hfloats).mp hsame, hslots, hgrows⟩
  · rintro ⟨hkept, hslots, hgrows⟩
    obtain ⟨size, hdone⟩ := run_done hslots hgrows
    have hfits : fits slots (rawOf g17 v) = true := fits_rawOf h (by decide) hslots (Nat.sub_le _ _)
    refine ⟨textOf (encodeValue g17 0 0 v), back g17 strtod v, ?_, ?_, (same_back_iff h hfloats).mpr hkept, ?_⟩
    · rw [jsonEncode, hdone]
      rfl
    · rw [jsonDecode, jpParseValue, hparse, if_pos hfits]
      rfl
    · rintro entries rfl hseq -
      rw [encodeValue, cut_of_le (by decide : 0 + 32 ≤ 32), if_pos ((all_table.mp hkept).1.1 hseq)]
      rfl

theorem isSequence_singleton (v : Val) : IsSequence [(.integer 1, v)] :=
  ⟨[1], rfl, by rw [List.length_singleton]; decide⟩

/-- `{0.5}`. -/
theorem round_trips_half :
    RoundTrips (fun _ => utf8 "0.5") (fun _ => 0x3fe0000000000000) minStack
      (.table [(.integer 1, .number 0x3fe0000000000000)]) := by
  have hentries : ∀ e ∈ [(Key.integer 1, Val.number 0x3fe0000000000000)], Encodable 31 e.2 :=
    List.forall_mem_singleton.mpr (.number 31 _ (by decide))
  have hprints : FloatsPrint (fun _ => utf8 "0.5") (fun _ => 0x3fe0000000000000) (.number 0x3fe0000000000000) := by
    have hdigit {x : UInt8} (hx : isDigit x = true) : Digits [x] := List.forall_mem_singleton.mpr hx
    refine ⟨[], [0x30], [0x2e, 0x35], [], ⟨.inl rfl, ⟨by decide, hdigit (by decide)⟩,
      .inr ⟨[0x35], hdigit (by decide), rfl⟩, .inl rfl⟩, by decide +kernel, by decide +kernel, ?_⟩
    rw [if_neg (by decide)]
  refine (round_trips_iff (fun _ => utf8 "0.5") (fun _ => 0x3fe0000000000000) minStack
    (.table 31 _ (.inl (isSequence_singleton _)) hentries) ⟨trivial, hprints, trivial⟩).mpr
    ⟨⟨⟨fun _ => by decide, ?_⟩, trivial, trivial⟩, by decide +kernel, growsOnTop_of_le (by decide +kernel)⟩
  exact List.forall_mem_singleton.mpr fun s hs => nomatch hs

/-- A table in a table, so many levels deep. -/
def nested : ℕ → Val
  | 0 => .boolean true
  | n + 1 => .table [(.string [0x61], nested n)]

theorem encodable_nested (m n : ℕ) : Encodable (m + n) (nested n) := by
  induction n with
  | zero => exact .boolean m true
  | succ n ih =>
    refine .table (m + n) _ (.inr ⟨?_, List.nodup_singleton _⟩) ?_
    · exact List.forall_mem_singleton.mpr ⟨_, rfl⟩
    · exact List.forall_mem_singleton.mpr ih

theorem floatsPrint_nested (g17 : F64Text) (strtod : Strtod) (n : ℕ) : (nested n).All (FloatsPrint g17 strtod) := by
  induction n with
  | zero => trivial
  | succ n ih => exact all_table.mpr ⟨trivial, List.forall_mem_singleton.mpr ih⟩

theorem exists_above_nested (g17 : F64Text) {depth above n : ℕ} (h : depth + n ≤ 32) :
    ∃ q ∈ encodeValue g17 depth above (nested n), q.above = above + 3 * n := by
  induction n generalizing depth above with
  | zero =>
    rw [nested, encodeValue, cut_of_le h]
    exact ⟨_, List.mem_cons_self, rfl⟩
  | succ n ih =>
    obtain ⟨q, hq, habove⟩ := @ih (depth + 1) (above + 3) (by omega)
    have harray : isArrayTable [(Key.string [0x61], nested n)] = false := rfl
    rw [nested, encodeValue, cut_of_le h, harray, if_neg Bool.false_ne_true]
    refine ⟨q, List.mem_cons_of_mem _ (List.mem_cons_of_mem _ (List.mem_append_left _ ?_)), by omega⟩
    exact mem_encodeMembers List.mem_cons_self hq

theorem length_le_length_quoted (s : Bytes) : s.length + 2 ≤ (quoted s).length := by
  have hone : ∀ x : UInt8, 1 ≤ (escapeByte x).length := by
    intro x
    rw [escapeByte]
    split_ifs <;> exact Nat.succ_le_succ (Nat.zero_le _)
  have hbody : s.length ≤ (s.flatMap escapeByte).length := by
    induction s with
    | nil => exact le_rfl
    | cons x s ih =>
      have hx := hone x
      rw [List.flatMap_cons, List.length_append, List.length_cons]
      omega
  rw [quoted, List.length_cons, List.length_append, List.length_singleton]
  omega

theorem not_growsOnTop_long (g17 : F64Text) {s : Bytes} (hs : 510 ≤ s.length) :
    ¬GrowsOnTop ⟨[], bufferSize⟩ (encodeValue g17 0 0 (.table [(.integer 1, .string s)])) := by
  intro hgrows
  have harray : isArrayTable [(Key.integer 1, Val.string s)] = true := rfl
  rw [encodeValue, cut_of_le (by decide : 0 + 32 ≤ 32), if_pos harray] at hgrows
  have hitems : GrowsOnTop ⟨[0x5b], bufferSize⟩
      (encodeItems g17 0 0 true [(.integer 1, .string s)] ++ [⟨0, [0x5d]⟩]) := hgrows
  rw [encodeItems, encodeValue, cut_of_le (by decide : 1 + 31 ≤ 32), if_pos rfl, List.nil_append,
    List.append_assoc] at hitems
  have habove : ∀ q ∈ encodeString (0 + 1) s, q.above ≠ 0 := by
    intro q hq
    rw [encodeString] at hq
    rcases List.mem_cons.mp hq with rfl | hq
    · exact Nat.one_ne_zero
    rcases List.mem_append.mp hq with hq | hq
    · obtain ⟨c, -, rfl⟩ := List.mem_map.mp hq
      exact Nat.one_ne_zero
    · obtain rfl := List.mem_singleton.mp hq
      exact Nat.one_ne_zero
  have hlen := length_le_of_growsOnTop (by decide) hitems habove
  have hquoted := length_le_length_quoted s
  rw [textOf_encodeString] at hlen
  change 1 + _ ≤ 512 at hlen
  omega

/-- A control character; a sequence whose second item comes first; seven levels of tables, which take 21 slots; and a
string in a table, for which the buffer of 512 bytes is too small. -/
theorem round_trips_fail :
    (∀ g17 strtod, ¬RoundTrips g17 strtod minStack (.string [1])) ∧
      (∀ g17 strtod,
        ¬RoundTrips g17 strtod minStack (.table [(.integer 2, .boolean true), (.integer 1, .boolean true)])) ∧
      (∀ g17 strtod, ¬RoundTrips g17 strtod minStack (nested 7)) ∧
      ∀ g17 strtod, ¬RoundTrips g17 strtod minStack (.table [(.integer 1, .string (List.replicate 510 0x61))]) := by
  refine ⟨fun g17 strtod h => ?_, fun g17 strtod h => ?_, fun g17 strtod h => ?_, fun g17 strtod h => ?_⟩
  · have hkept := ((round_trips_iff g17 strtod minStack (.string 32 [1]) trivial).mp h).1
    exact absurd (show Plain [1] from hkept) (by decide)
  · have hseq : IsSequence [(.integer 2, .boolean true), (.integer 1, .boolean true)] := ⟨[2, 1], rfl, by decide⟩
    have hentries : ∀ e ∈ [(Key.integer 2, Val.boolean true), (.integer 1, .boolean true)], Encodable 31 e.2 :=
      List.forall_mem_cons.mpr ⟨.boolean 31 true, List.forall_mem_singleton.mpr (.boolean 31 true)⟩
    have hkept := ((round_trips_iff g17 strtod minStack (.table 31 _ (.inl hseq) hentries)
      ⟨trivial, trivial, trivial, trivial⟩).mp h).1
    exact absurd (hkept.1.1 hseq) (by decide)
  · have hslots := ((round_trips_iff g17 strtod minStack (encodable_nested 25 7) (floatsPrint_nested g17 strtod 7)).mp
      h).2.1
    obtain ⟨q, hq, habove⟩ := @exists_above_nested g17 0 0 7 (by decide)
    exact absurd (hslots q hq) (by rw [habove]; decide)
  · generalize hs : List.replicate 510 (0x61 : UInt8) = s at h
    have hlong : 510 ≤ s.length := by rw [← hs, List.length_replicate]
    have hentries : ∀ e ∈ [(Key.integer 1, Val.string s)], Encodable 31 e.2 :=
      List.forall_mem_singleton.mpr (.string 31 s)
    have hgrows := ((round_trips_iff g17 strtod minStack (.table 31 _ (.inl (isSequence_singleton _)) hentries)
      ⟨trivial, trivial, trivial⟩).mp h).2.2
    exact not_growsOnTop_long g17 hlong hgrows

end VelocityMcp.Guest.LuaEncoder
