import Mathlib.Algebra.Order.Ring.Nat
import Mathlib.Data.String.Basic
import Mathlib.Tactic.Ring
import VelocityMcp.Lib.Outcome

/-!
# Lib.Bytes — byte strings: checked slicing, fixed-width integers, UTF-8

`At b i m`: the bytes `m` lie in `b` at offset `i`; what each indexing operation needs and gives.
-/

namespace Lib

/-- A byte buffer. -/
abbrev Bytes := List UInt8

/-! ## Checked slicing -/

section Slice

variable {ε : Type}

/-- `b[i..j]`. -/
def slice (b : Bytes) (i j : ℕ) : Outcome ε Bytes :=
  if i ≤ j ∧ j ≤ b.length then .ok ((b.drop i).take (j - i)) else .panic

/-- `b[i..]`. -/
def sliceFrom (b : Bytes) (i : ℕ) : Outcome ε Bytes :=
  if i ≤ b.length then .ok (b.drop i) else .panic

/-- `b[i]`. -/
def byteAt (b : Bytes) (i : ℕ) : Outcome ε UInt8 :=
  match b[i]? with
  | some x => .ok x
  | none => .panic

theorem slice_of_le {b : Bytes} {i j : ℕ} (hij : i ≤ j) (hj : j ≤ b.length) :
    slice (ε := ε) b i j = .ok ((b.drop i).take (j - i)) := if_pos ⟨hij, hj⟩

theorem sliceFrom_of_le {b : Bytes} {i : ℕ} (hi : i ≤ b.length) :
    sliceFrom (ε := ε) b i = .ok (b.drop i) := if_pos hi

theorem slice_ne_panic {b : Bytes} {i j : ℕ} (hij : i ≤ j) (hj : j ≤ b.length) :
    slice (ε := ε) b i j ≠ .panic := by simp [slice_of_le hij hj]

theorem sliceFrom_ne_panic {b : Bytes} {i : ℕ} (hi : i ≤ b.length) :
    sliceFrom (ε := ε) b i ≠ .panic := by simp [sliceFrom_of_le hi]

theorem slice_errIn {P : ε → Prop} (b : Bytes) (i j : ℕ) : (slice b i j).ErrIn P := by
  unfold slice
  split_ifs
  · exact Outcome.errIn_ok _
  · exact fun e he => absurd he (by simp)

theorem sliceFrom_errIn {P : ε → Prop} (b : Bytes) (i : ℕ) : (sliceFrom b i).ErrIn P := by
  unfold sliceFrom
  split_ifs
  · exact Outcome.errIn_ok _
  · exact fun e he => absurd he (by simp)

theorem byteAt_errIn {P : ε → Prop} (b : Bytes) (i : ℕ) : (byteAt b i).ErrIn P := by
  unfold byteAt
  cases b[i]? with
  | some x => exact Outcome.errIn_ok x
  | none => exact fun e he => absurd he (by simp)

/-! ### After the first byte -/

section Cons

variable {x : UInt8} {b : Bytes} {n : ℕ}

@[simp] theorem byteAt_cons_zero : byteAt (ε := ε) (x :: b) 0 = .ok x := rfl

@[simp] theorem sliceFrom_cons_one : sliceFrom (ε := ε) (x :: b) 1 = .ok b := by
  rw [sliceFrom_of_le (by simp), List.drop_one, List.tail_cons]

theorem sliceFrom_cons (hn : n ≤ b.length) : sliceFrom (ε := ε) (x :: b) (1 + n) = .ok (b.drop n) := by
  rw [sliceFrom_of_le (by rw [List.length_cons]; omega), Nat.add_comm, List.drop_succ_cons]

theorem slice_cons (hn : n ≤ b.length) : slice (ε := ε) (x :: b) 1 (1 + n) = .ok (b.take n) := by
  rw [slice_of_le (by omega) (by rw [List.length_cons]; omega), List.drop_one, List.tail_cons,
    Nat.add_sub_cancel_left]

end Cons

/-! ### Bytes at an offset -/

/-- The bytes `m` lie in `b` at offset `i`. -/
def At (b : Bytes) (i : ℕ) (m : Bytes) : Prop := ∃ p q, b = p ++ (m ++ q) ∧ p.length = i

variable {b m m' : Bytes} {i j : ℕ}

theorem at_append (p m q : Bytes) : At (p ++ (m ++ q)) p.length m := ⟨p, q, rfl, rfl⟩

theorem at_zero (m q : Bytes) : At (m ++ q) 0 m := ⟨[], q, rfl, rfl⟩

theorem at_nil (hi : i ≤ b.length) : At b i [] := ⟨b.take i, b.drop i, by simp, by simp [hi]⟩

theorem at_append_iff : At b i (m ++ m') ↔ At b i m ∧ At b (i + m.length) m' := by
  constructor
  · rintro ⟨p, q, rfl, rfl⟩
    exact ⟨⟨p, m' ++ q, by simp, rfl⟩, ⟨p ++ m, q, by simp, by simp⟩⟩
  · rintro ⟨⟨p, q, rfl, rfl⟩, ⟨p', q', h, hl⟩⟩
    obtain ⟨rfl, rfl⟩ : p' = p ++ m ∧ q = m' ++ q' := by
      rw [← List.append_assoc] at h
      have := List.append_inj h.symm (by simp [hl])
      exact ⟨this.1, this.2.symm⟩
    exact ⟨p, q', by simp, rfl⟩

theorem at_cons_iff {x : UInt8} : At b i (x :: m) ↔ At b i [x] ∧ At b (i + 1) m :=
  at_append_iff (m := [x])

theorem At.length_le (h : At b i m) : i + m.length ≤ b.length := by
  obtain ⟨p, q, rfl, rfl⟩ := h
  simp only [List.length_append]
  omega

theorem At.append (h : At b i m) (r : Bytes) : At (b ++ r) i m := by
  obtain ⟨p, q, rfl, rfl⟩ := h
  exact ⟨p, q ++ r, by simp, rfl⟩

theorem At.drop (h : At b i m) : ∃ q, b.drop i = m ++ q := by
  obtain ⟨p, q, rfl, rfl⟩ := h
  exact ⟨q, by simp⟩

theorem at_of_drop {q : Bytes} (hi : i ≤ b.length) (h : b.drop i = m ++ q) : At b i m :=
  ⟨b.take i, q, by rw [← h, List.take_append_drop], by simp [hi]⟩

theorem exists_at {n : ℕ} (h : i + n ≤ b.length) : ∃ m, At b i m ∧ m.length = n :=
  ⟨(b.drop i).take n, at_of_drop (by omega) (List.take_append_drop n _).symm, by simp; omega⟩

theorem At.of_drop (hi : i ≤ b.length) (h : At (b.drop i) j m) : At b (i + j) m := by
  obtain ⟨p, q, h, rfl⟩ := h
  exact ⟨b.take i ++ p, q, by rw [List.append_assoc, ← h, List.take_append_drop], by simp [hi]⟩

theorem At.take (h : At b i m) (hn : i + m.length ≤ j) : At (b.take j) i m := by
  obtain ⟨p, q, rfl, rfl⟩ := h
  refine ⟨p, q.take (j - (p.length + m.length)), ?_, rfl⟩
  rw [List.take_append, List.take_append, List.take_of_length_le (by omega),
    List.take_of_length_le (l := m) (by omega)]
  congr 3
  omega

theorem At.slice (h : At b i m) (hj : j = i + m.length) : slice (ε := ε) b i j = .ok m := by
  subst hj
  rw [slice_of_le (by omega) h.length_le]
  obtain ⟨p, q, rfl, rfl⟩ := h
  simp

theorem at_of_slice (h : Lib.slice (ε := ε) b i j = .ok m) : At b i m ∧ j = i + m.length := by
  unfold Lib.slice at h
  split_ifs at h with hij
  rw [Outcome.ok.injEq] at h
  have hl : m.length = j - i := by rw [← h, List.length_take, List.length_drop]; omega
  have hd : (b.drop i).drop (j - i) = b.drop j := by rw [List.drop_drop]; congr 1; omega
  refine ⟨at_of_drop (by omega) (q := b.drop j) ?_, by omega⟩
  rw [← h, ← hd, List.take_append_drop]

theorem At.byteAt {x : UInt8} (h : At b i [x]) : byteAt (ε := ε) b i = .ok x := by
  obtain ⟨p, q, rfl, rfl⟩ := h
  simp [Lib.byteAt]

theorem at_of_byteAt {x : UInt8} (h : Lib.byteAt (ε := ε) b i = .ok x) : At b i [x] := by
  unfold Lib.byteAt at h
  split at h
  · next y hy =>
    rw [Outcome.ok.injEq] at h
    obtain ⟨hi, hy⟩ := List.getElem?_eq_some_iff.mp hy
    exact at_of_drop (q := b.drop (i + 1)) hi.le (by rw [List.drop_eq_getElem_cons hi, hy, h]; rfl)
  · exact absurd h (by simp)

theorem byteAt_ne_panic (hi : i < b.length) : Lib.byteAt (ε := ε) b i ≠ .panic := by
  simp [Lib.byteAt, hi]

end Slice

/-! ## Fixed-width integers -/

section Ints

/-- `n` on `k` bytes, least significant first; `n` is taken modulo `256 ^ k`. -/
def leBytes : ℕ → ℕ → Bytes
  | 0, _ => []
  | k + 1, n => UInt8.ofNat n :: leBytes k (n / 256)

/-- The number whose base-256 digits are `b`, least significant first. -/
def leNat : Bytes → ℕ
  | [] => 0
  | x :: b => x.toNat + 256 * leNat b

/-- `n` on `k` bytes, most significant first. -/
def beBytes (k n : ℕ) : Bytes := (leBytes k n).reverse

/-- The number whose base-256 digits are `b`, most significant first. -/
def beNat (b : Bytes) : ℕ := leNat b.reverse

@[simp] theorem length_leBytes (k n : ℕ) : (leBytes k n).length = k := by
  induction k generalizing n with
  | zero => rfl
  | succ k ih => simp [leBytes, ih]

@[simp] theorem length_beBytes (k n : ℕ) : (beBytes k n).length = k := by simp [beBytes]

theorem leNat_lt (b : Bytes) : leNat b < 256 ^ b.length := by
  induction b with
  | nil => simp [leNat]
  | cons x b ih =>
    have hx : x.toNat < 256 := x.toNat_lt
    simp only [leNat, List.length_cons, pow_succ]
    omega

theorem beNat_lt (b : Bytes) : beNat b < 256 ^ b.length := by
  simpa [beNat] using leNat_lt b.reverse

@[simp] theorem leNat_leBytes (k n : ℕ) : leNat (leBytes k n) = n % 256 ^ k := by
  induction k generalizing n with
  | zero => simp [leBytes, leNat, Nat.mod_one]
  | succ k ih =>
    have hmod : n % 256 ^ (k + 1) = n % 256 + 256 * (n / 256 % 256 ^ k) := by
      rw [pow_succ, mul_comm (256 ^ k) 256, Nat.mod_mul]
    simp [leBytes, leNat, ih, hmod]

@[simp] theorem beNat_beBytes (k n : ℕ) : beNat (beBytes k n) = n % 256 ^ k := by
  simp [beNat, beBytes]

theorem leBytes_leNat (b : Bytes) : leBytes b.length (leNat b) = b := by
  induction b with
  | nil => rfl
  | cons x b ih =>
    have hx : x.toNat < 256 := x.toNat_lt
    have hdiv : (x.toNat + 256 * leNat b) / 256 = leNat b := by omega
    have hmod : UInt8.ofNat (x.toNat + 256 * leNat b) = x := by
      apply UInt8.toNat_inj.mp
      simp only [UInt8.toNat_ofNat']
      omega
    simp [leBytes, leNat, hdiv, hmod, ih]

theorem beBytes_beNat (b : Bytes) : beBytes b.length (beNat b) = b := by
  have h := leBytes_leNat b.reverse
  rw [List.length_reverse] at h
  simp [beBytes, beNat, h]

/-- Read `k` bytes at offset `i` as an integer, most significant first. -/
def beAt {ε : Type} (b : Bytes) (i k : ℕ) : Outcome ε ℕ := do
  let w ← slice b i (i + k)
  .ok (beNat w)

variable {ε : Type} {b : Bytes} {i k n : ℕ}

theorem At.beAt_mod (h : At b i (beBytes k n)) : Lib.beAt (ε := ε) b i k = .ok (n % 256 ^ k) := by
  rw [Lib.beAt, h.slice (by simp), Outcome.ok_bind, beNat_beBytes]

theorem At.beAt (h : At b i (beBytes k n)) (hn : n < 256 ^ k) : beAt (ε := ε) b i k = .ok n := by
  rw [h.beAt_mod, Nat.mod_eq_of_lt hn]

theorem at_of_beAt (h : Lib.beAt (ε := ε) b i k = .ok n) : At b i (beBytes k n) ∧ n < 256 ^ k := by
  obtain ⟨w, hw, h⟩ := Outcome.bind_eq_ok.mp h
  obtain ⟨hat, hl⟩ := at_of_slice hw
  have hk : w.length = k := by omega
  rw [Outcome.ok.injEq] at h
  subst h
  subst hk
  exact ⟨by rwa [beBytes_beNat], beNat_lt w⟩

/-- Read `k` bytes at offset `i` as an integer, least significant first. -/
def leAt {ε : Type} (b : Bytes) (i k : ℕ) : Outcome ε ℕ := do
  let w ← slice b i (i + k)
  .ok (leNat w)

theorem At.leAt_mod (h : At b i (leBytes k n)) : Lib.leAt (ε := ε) b i k = .ok (n % 256 ^ k) := by
  rw [Lib.leAt, h.slice (by simp), Outcome.ok_bind, leNat_leBytes]

theorem At.leAt (h : At b i (leBytes k n)) (hn : n < 256 ^ k) : leAt (ε := ε) b i k = .ok n := by
  rw [h.leAt_mod, Nat.mod_eq_of_lt hn]

theorem leAt_ne_panic (h : i + k ≤ b.length) : Lib.leAt (ε := ε) b i k ≠ .panic := by
  simp [Lib.leAt, slice_of_le (Nat.le_add_right i k) h]

theorem beAt_errIn {P : ε → Prop} (b : Bytes) (i k : ℕ) : (beAt b i k).ErrIn P :=
  (slice_errIn b i (i + k)).bind fun _ _ => Outcome.errIn_ok _

theorem beAt_ne_panic (h : i + k ≤ b.length) : Lib.beAt (ε := ε) b i k ≠ .panic := by
  simp [Lib.beAt, slice_of_le (Nat.le_add_right i k) h]

end Ints

/-! ## Appending writers -/

/-- What a writer has appended, and the error it stopped with, if any. -/
structure Emit (ε : Type) where
  bytes : Bytes
  error : Option ε
deriving DecidableEq, Repr

namespace Emit

variable {ε : Type}

/-- Append `b`. -/
def put (b : Bytes) : Emit ε := ⟨b, none⟩

/-- Stop. -/
def fail (e : ε) : Emit ε := ⟨[], some e⟩

/-- One writer after another; nothing is appended after an error. -/
def andThen (x y : Emit ε) : Emit ε :=
  match x.error with
  | none => ⟨x.bytes ++ y.bytes, y.error⟩
  | some e => ⟨x.bytes, some e⟩

/-- What was put, if nothing failed. -/
def toOutcome (x : Emit ε) : Outcome ε Bytes :=
  match x.error with
  | none => .ok x.bytes
  | some e => .err e

theorem toOutcome_eq_ok {x : Emit ε} {b : Bytes} : x.toOutcome = .ok b ↔ x = put b := by
  obtain ⟨bytes, error⟩ := x
  cases error <;> simp [toOutcome, put]

@[simp] theorem toOutcome_put (b : Bytes) : (put b : Emit ε).toOutcome = .ok b := rfl

@[simp] theorem put_andThen (b : Bytes) (y : Emit ε) :
    (put b).andThen y = ⟨b ++ y.bytes, y.error⟩ := rfl

theorem put_andThen_put (b c : Bytes) : (put b : Emit ε).andThen (put c) = put (b ++ c) := rfl

theorem andThen_assoc (x y z : Emit ε) : (x.andThen y).andThen z = x.andThen (y.andThen z) := by
  obtain ⟨bx, ex⟩ := x
  obtain ⟨by', ey⟩ := y
  cases ex with
  | none => cases ey <;> simp [andThen]
  | some e => rfl

@[simp] theorem andThen_put_nil (x : Emit ε) : x.andThen (put []) = x := by
  obtain ⟨bytes, error⟩ := x
  cases error <;> simp [andThen, put]

theorem eq_put {x : Emit ε} (h : x.error = none) : x = put x.bytes := by
  rw [put, ← h]

theorem andThen_of_none {x y : Emit ε} (h : x.error = none) :
    x.andThen y = ⟨x.bytes ++ y.bytes, y.error⟩ := by
  rw [andThen, h]

theorem andThen_of_error {x y : Emit ε} {e : ε} (h : x.error = some e) :
    x.andThen y = ⟨x.bytes, some e⟩ := by
  rw [andThen, h]

theorem andThen_eq_put {x y : Emit ε} {b : Bytes} :
    x.andThen y = put b ↔ ∃ c d, x = put c ∧ y = put d ∧ b = c ++ d := by
  obtain ⟨bx, ex⟩ := x
  obtain ⟨by', ey⟩ := y
  cases ex with
  | none =>
    cases ey with
    | none => simp [andThen, put, eq_comm]
    | some e => simp [andThen, put]
  | some e => simp [andThen, put]

end Emit

/-! ## Strings -/

section Utf8

/-- The bytes of a string. -/
def utf8 (s : String) : Bytes := s.toByteArray.data.toList

/-- The string with these UTF-8 bytes, if they are valid. -/
def fromUtf8 (b : Bytes) : Option String := String.fromUTF8? ⟨b.toArray⟩

@[simp] theorem fromUtf8_utf8 (s : String) : fromUtf8 (utf8 s) = some s := by
  have h : (⟨(utf8 s).toArray⟩ : ByteArray) = s.toByteArray := by simp [utf8]
  simp [fromUtf8, String.fromUTF8?, h, s.isValidUTF8, String.fromUTF8]

theorem utf8_of_fromUtf8 {b : Bytes} {s : String} (h : fromUtf8 b = some s) : utf8 s = b := by
  simp only [fromUtf8, String.fromUTF8?] at h
  split_ifs at h with hv
  simp only [Option.some.injEq] at h
  subst h
  simp [utf8, String.fromUTF8]

theorem utf8_injective : Function.Injective utf8 := fun s t h => by
  have hs := fromUtf8_utf8 s
  rw [h, fromUtf8_utf8] at hs
  exact (Option.some.inj hs).symm

@[simp] theorem utf8_inj {s t : String} : utf8 s = utf8 t ↔ s = t := utf8_injective.eq_iff

/-! ### How long a text is -/

@[simp] theorem utf8_append (s t : String) : utf8 (s ++ t) = utf8 s ++ utf8 t := by
  simp [utf8, String.toByteArray_append]

theorem utf8EncodeChar_ascii {n : ℕ} (h : n < 0x80) : String.utf8EncodeChar (Char.ofNat n) = [UInt8.ofNat n] := by
  have hsmall : ∀ n < 0x80, String.utf8EncodeChar (Char.ofNat n) = [UInt8.ofNat n] := by decide +kernel
  exact hsmall n h

theorem length_utf8_cons (c : Char) (cs : List Char) :
    (utf8 (String.ofList (c :: cs))).length = c.utf8Size + (utf8 (String.ofList cs)).length := by
  simp [utf8, List.utf8Encode]

theorem length_utf8_ofList (cs : List Char) : (utf8 (String.ofList cs)).length = (cs.map Char.utf8Size).sum := by
  induction cs with
  | nil => simp [utf8]
  | cons c cs ih => rw [length_utf8_cons, ih, List.map_cons, List.sum_cons]

theorem le_length_utf8_ofList : ∀ cs : List Char, cs.length ≤ (utf8 (String.ofList cs)).length
  | [] => Nat.zero_le _
  | c :: cs => by
    have hc := c.utf8Size_pos
    have hcs := le_length_utf8_ofList cs
    rw [length_utf8_cons, List.length_cons]
    omega

theorem length_utf8_ofList_le : ∀ cs : List Char, (utf8 (String.ofList cs)).length ≤ 4 * cs.length
  | [] => by simp [utf8]
  | c :: cs => by
    have hc := c.utf8Size_le_four
    have hcs := length_utf8_ofList_le cs
    rw [length_utf8_cons, List.length_cons]
    omega

theorem length_utf8_toString {n k : ℕ} (hk : 0 < k) (hn : n < 10 ^ k) :
    (utf8 (toString n)).length ≤ 4 * k := by
  have hdigits : (Nat.toDigits 10 n).length ≤ k := (Nat.length_toDigits_le_iff (by decide) hk).mpr hn
  have hle := length_utf8_ofList_le (Nat.toDigits 10 n)
  have hrepr : toString n = String.ofList (Nat.toDigits 10 n) := Nat.repr_eq_ofList_toDigits
  rw [hrepr]
  omega

/-! ### The error of a failed conversion -/

/-- The number of bytes of the longest prefix that is valid UTF-8. -/
def validUpTo (b : Bytes) : ℕ :=
  ((List.range (b.length + 1)).reverse.find? fun n => (fromUtf8 (b.take n)).isSome).getD 0

def isContinuation (y : UInt8) : Bool := 0x80 ≤ y && y ≤ 0xBF

/-- The number of bytes of the character that a byte starts; 0 if it starts none. -/
def charWidth (x : UInt8) : ℕ :=
  if x < 0x80 then 1 else if x < 0xC2 then 0 else if x < 0xE0 then 2 else if x < 0xF0 then 3
  else if x < 0xF5 then 4 else 0

/-- The second bytes that may follow a first byte of a character of two to four bytes. -/
def isSecond (x y : UInt8) : Bool :=
  if x = 0xE0 then 0xA0 ≤ y && y ≤ 0xBF
  else if x = 0xED then 0x80 ≤ y && y ≤ 0x9F
  else if x = 0xF0 then 0x90 ≤ y && y ≤ 0xBF
  else if x = 0xF4 then 0x80 ≤ y && y ≤ 0x8F
  else isContinuation y

/-- How many bytes the first ill-formed sequence takes; nothing if the bytes only end too early. -/
def errorLen : Bytes → Option ℕ
  | [] => none
  | [x] => if charWidth x < 2 then some 1 else none
  | x :: y :: r =>
    if charWidth x < 2 || !isSecond x y then some 1
    else match r with
      | [] => none
      | [z] => if isContinuation z then none else some 2
      | z :: _ => if isContinuation z then some 3 else some 2

def utf8ErrorText (b : Bytes) : String :=
  match errorLen (b.drop (validUpTo b)) with
  | some n => s!"invalid utf-8 sequence of {n} bytes from index {validUpTo b}"
  | none => s!"incomplete utf-8 byte sequence from index {validUpTo b}"

theorem validUpTo_le (b : Bytes) : validUpTo b ≤ b.length := by
  unfold validUpTo
  cases h : (List.range (b.length + 1)).reverse.find? fun n => (fromUtf8 (b.take n)).isSome with
  | none => exact Nat.zero_le _
  | some n =>
    have hmem := List.mem_of_find?_eq_some h
    rw [List.mem_reverse, List.mem_range] at hmem
    exact Nat.lt_succ_iff.mp hmem

theorem errorLen_le {b : Bytes} {n : ℕ} (h : errorLen b = some n) : n ≤ 3 := by
  unfold errorLen at h
  split at h
  · exact absurd h (by simp)
  · split_ifs at h
    obtain rfl := Option.some.inj h
    decide
  · split_ifs at h
    · obtain rfl := Option.some.inj h
      decide
    · split at h
      · exact absurd h (by simp)
      · split_ifs at h
        obtain rfl := Option.some.inj h
        decide
      · split_ifs at h <;> obtain rfl := Option.some.inj h <;> decide

theorem length_utf8ErrorText {b : Bytes} {k : ℕ} (hk : 0 < k) (hb : b.length < 10 ^ k) :
    (utf8 (utf8ErrorText b)).length ≤ 60 + 4 * k := by
  have hindex := length_utf8_toString hk (lt_of_le_of_lt (validUpTo_le b) hb)
  unfold utf8ErrorText
  split
  · next n h =>
    have hn := length_utf8_toString (n := n) (k := 1) (by decide) (by have := errorLen_le h; omega)
    have h₁ : (utf8 "invalid utf-8 sequence of ").length = 26 := by decide
    have h₂ : (utf8 " bytes from index ").length = 18 := by decide
    show (utf8 ("invalid utf-8 sequence of " ++ toString n ++ " bytes from index " ++
      toString (validUpTo b))).length ≤ _
    simp only [utf8_append, List.length_append]
    omega
  · have h₁ : (utf8 "incomplete utf-8 byte sequence from index ").length = 42 := by decide
    show (utf8 ("incomplete utf-8 byte sequence from index " ++ toString (validUpTo b))).length ≤ _
    simp only [utf8_append, List.length_append]
    omega

end Utf8

end Lib
