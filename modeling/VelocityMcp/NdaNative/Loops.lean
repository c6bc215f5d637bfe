import VelocityMcp.NdaNative.Tlv

/-!
# NdaNative.Loops — the loops over items and entries, which the decoders of server and client share

`itemStep`, `entryStep`: the loop bodies, for any decoder of values and any errors.
-/

namespace VelocityMcp.NdaNative

open Lib

variable {ε : Type} {value : Bytes → Outcome ε (Value × ℕ)} {b : Bytes}

/-- A decoder's view of a wire value: the first bad string is its error. -/
def view {α : Type} (bad : BadUtf8 → ε) (x : Except BadUtf8 α) : Outcome ε α := (Outcome.ofExcept x).mapErr bad

/-- The loop body of an array: the items so far, and the offset. -/
def itemStep (value : Bytes → Outcome ε (Value × ℕ)) (b : Bytes) (s : List Value × ℕ) :
    Outcome ε (List Value × ℕ) := do
  let rest ← sliceFrom b s.2
  let (v, n) ← value rest
  .ok (s.1 ++ [v], s.2 + n)

/-- The text of a key, or the error of a bad one. -/
def readKey (bad : BadUtf8 → ε) (k : Bytes) : Outcome ε String :=
  match fromUtf8 k with
  | some s => .ok s
  | none => .err (bad (.key k))

/-- The loop body of an object: the entries so far, and the offset. -/
def entryStep (keyLength keyData : ε) (bad : BadUtf8 → ε) (value : Bytes → Outcome ε (Value × ℕ)) (b : Bytes)
    (s : List (String × Value) × ℕ) : Outcome ε (List (String × Value) × ℕ) :=
  if b.length < s.2 + 2 then .err keyLength
  else do
    let klen ← beAt b s.2 2
    if b.length < s.2 + 2 + klen then .err keyData
    else do
      let k ← slice b (s.2 + 2) (s.2 + 2 + klen)
      let key ← readKey bad k
      let rest ← sliceFrom b (s.2 + 2 + klen)
      let (v, n) ← value rest
      .ok (insertKey key v s.1, s.2 + 2 + klen + n)

variable {keyLength keyData : ε} {bad : BadUtf8 → ε}

/-! ## On the encoding of trees -/

theorem at_drop {off : ℕ} {m : Bytes} (h : At b off m) : At (b.drop off) 0 m := by
  obtain ⟨q, hq⟩ := h.drop
  rw [hq]
  exact at_zero m q

/-- On the encoding of wire trees, the loop collects their values. -/
theorem items_of_at {ts : List Tlv} {off : ℕ} (hpos : 0 < off)
    (hvalue : ∀ t ∈ ts, ∀ b' : Bytes, b'.length < b.length → At b' 0 t.bytes →
      value b' = view bad t.value >>= fun v => .ok (v, t.bytes.length))
    (h : At b off (Tlv.itemsBytes ts)) (acc : List Value) :
    forCount (itemStep value b) ts.length (acc, off) =
      view bad (Tlv.itemsValue ts) >>= fun vs => .ok (acc ++ vs, off + (Tlv.itemsBytes ts).length) := by
  induction ts generalizing off acc with
  | nil => simp [Tlv.itemsBytes, Tlv.itemsValue, view]
  | cons t ts ih =>
    obtain ⟨ht, hts⟩ := at_append_iff.mp h
    have hle := ht.length_le
    have hshort : (b.drop off).length < b.length := by
      have := List.length_pos_iff.mpr t.bytes_ne_nil
      rw [List.length_drop]
      omega
    have hrest := ih (by omega) (fun t ht => hvalue t (List.mem_cons_of_mem _ ht)) hts
    rw [List.length_cons, forCount_succ, itemStep, sliceFrom_of_le (by omega), Outcome.ok_bind,
      hvalue t List.mem_cons_self _ hshort (at_drop ht), Tlv.itemsValue]
    cases t.value with
    | error e => rfl
    | ok v =>
      simp only [view, Outcome.ofExcept_ok, Outcome.mapErr_ok, Outcome.ok_bind] at hrest ⊢
      rw [hrest]
      cases Tlv.itemsValue ts with
      | error e => rfl
      | ok vs => simp [Except.map, Tlv.itemsBytes, Nat.add_assoc]

/-- So does the loop over the entries. -/
theorem entries_of_at {es : List (Bytes × Tlv)} {off : ℕ} (hkey : ∀ e ∈ es, e.1.length < 256 ^ 2)
    (hvalue : ∀ e ∈ es, ∀ b' : Bytes, b'.length < b.length → At b' 0 e.2.bytes →
      value b' = view bad e.2.value >>= fun v => .ok (v, e.2.bytes.length))
    (h : At b off (Tlv.entriesBytes es)) (map : List (String × Value)) :
    forCount (entryStep keyLength keyData bad value b) es.length (map, off) =
      view bad (Tlv.entriesValue es) >>= fun ps =>
        .ok (insertAll map ps, off + (Tlv.entriesBytes es).length) := by
  induction es generalizing off map with
  | nil => simp [Tlv.entriesBytes, Tlv.entriesValue, view]
  | cons e es ih =>
    obtain ⟨k, t⟩ := e
    obtain ⟨hlen, hrest⟩ := at_append_iff.mp h
    obtain ⟨hk, hrest⟩ := at_append_iff.mp hrest
    obtain ⟨ht, hes⟩ := at_append_iff.mp hrest
    rw [length_beBytes] at hk ht hes
    have hle := ht.length_le
    have hshort : (b.drop (off + 2 + k.length)).length < b.length := by
      have := List.length_pos_iff.mpr t.bytes_ne_nil
      rw [List.length_drop]
      omega
    have hrest := ih (fun e he => hkey e (List.mem_cons_of_mem _ he))
      (fun e he => hvalue e (List.mem_cons_of_mem _ he)) hes
    rw [List.length_cons, forCount_succ, entryStep]
    simp only
    rw [if_neg (by omega), hlen.beAt (hkey _ List.mem_cons_self), Outcome.ok_bind, if_neg (by omega),
      hk.slice rfl, Outcome.ok_bind, Tlv.entriesValue, readKey]
    cases fromUtf8 k with
    | none => rfl
    | some key =>
      simp only [Outcome.ok_bind]
      rw [sliceFrom_of_le (by omega), Outcome.ok_bind, hvalue _ List.mem_cons_self _ hshort (at_drop ht)]
      cases t.value with
      | error e => rfl
      | ok v =>
        simp only [view, Outcome.ofExcept_ok, Outcome.mapErr_ok, Outcome.ok_bind] at hrest ⊢
        rw [hrest]
        cases Tlv.entriesValue es with
        | error e => rfl
        | ok ps =>
          simp only [Except.map, Outcome.ofExcept_ok, Outcome.mapErr_ok, Outcome.ok_bind, insertAll_cons,
            Tlv.entriesBytes, List.length_append, length_beBytes]
          congr 2
          omega

/-! ## What is accepted is an encoding -/

section Sound

variable {off off' : ℕ} {P : Tlv → Prop}

theorem readKey_eq_ok {k : Bytes} {s : String} (h : readKey bad k = .ok s) : fromUtf8 k = some s := by
  rw [readKey] at h
  split at h
  · next hs => rw [hs, Outcome.ok.inj h]
  · exact absurd h (by simp)

/-- What the loop runs through is such an encoding. -/
theorem items_sound (hvalue : ∀ b v n, value b = .ok (v, n) →
      ∃ t, P t ∧ At b 0 t.bytes ∧ n = t.bytes.length ∧ t.value = .ok v) :
    ∀ {count : ℕ} {acc items : List Value} {off : ℕ}, off ≤ b.length →
      forCount (itemStep value b) count (acc, off) = .ok (items, off') →
      ∃ ts, ts.length = count ∧ (∀ t ∈ ts, P t) ∧ At b off (Tlv.itemsBytes ts) ∧
        off' = off + (Tlv.itemsBytes ts).length ∧
        ∃ vs, Tlv.itemsValue ts = .ok vs ∧ items = acc ++ vs := by
  intro count
  induction count with
  | zero =>
    intro acc items off hoff h
    rw [forCount_zero, Outcome.ok.injEq, Prod.mk.injEq] at h
    exact ⟨[], rfl, by simp, at_nil hoff, by simp [Tlv.itemsBytes, h.2], [], rfl, by simp [h.1]⟩
  | succ count ih =>
    intro acc items off hoff h
    rw [forCount_succ] at h
    obtain ⟨⟨acc₁, off₁⟩, h₁, h₂⟩ := Outcome.bind_eq_ok.mp h
    rw [itemStep, sliceFrom_of_le hoff, Outcome.ok_bind] at h₁
    obtain ⟨⟨v, n⟩, hn, h₁⟩ := Outcome.bind_eq_ok.mp h₁
    obtain ⟨rfl, rfl⟩ := Outcome.ok_pair_inj h₁
    obtain ⟨t, ht, hat, rfl, hv⟩ := hvalue _ _ _ hn
    have hat := hat.of_drop hoff
    rw [Nat.add_zero] at hat
    obtain ⟨ts, hlen, hts, hats, rfl, vs, hvs, rfl⟩ := ih (by have := hat.length_le; omega) h₂
    refine ⟨t :: ts, by simp [hlen], List.forall_mem_cons.mpr ⟨ht, hts⟩, at_append_iff.mpr ⟨hat, hats⟩, ?_,
      v :: vs, ?_, by simp⟩
    · rw [Tlv.itemsBytes, List.length_append, Nat.add_assoc]
    · exact Tlv.itemsValue_cons_eq_ok.mpr ⟨v, vs, hv, hvs, rfl⟩

/-- So is what this one runs through. -/
theorem entries_sound (hvalue : ∀ b v n, value b = .ok (v, n) →
      ∃ t, P t ∧ At b 0 t.bytes ∧ n = t.bytes.length ∧ t.value = .ok v) :
    ∀ {count : ℕ} {acc map : List (String × Value)} {off : ℕ}, off ≤ b.length →
      forCount (entryStep keyLength keyData bad value b) count (acc, off) = .ok (map, off') →
      ∃ es : List (Bytes × Tlv), es.length = count ∧ (∀ e ∈ es, e.1.length < 256 ^ 2 ∧ P e.2) ∧
        At b off (Tlv.entriesBytes es) ∧ off' = off + (Tlv.entriesBytes es).length ∧
        ∃ ps, Tlv.entriesValue es = .ok ps ∧ map = insertAll acc ps := by
  intro count
  induction count with
  | zero =>
    intro acc map off hoff h
    rw [forCount_zero, Outcome.ok.injEq, Prod.mk.injEq] at h
    exact ⟨[], rfl, by simp, at_nil hoff, by simp [Tlv.entriesBytes, h.2], [], rfl, by simp [h.1]⟩
  | succ count ih =>
    intro acc map off hoff h
    rw [forCount_succ] at h
    obtain ⟨⟨acc₁, off₁⟩, h₁, h₂⟩ := Outcome.bind_eq_ok.mp h
    rw [entryStep] at h₁
    simp only at h₁
    split_ifs at h₁ with hlt
    obtain ⟨klen, hklen, h₁⟩ := Outcome.bind_eq_ok.mp h₁
    obtain ⟨hatlen, hklt⟩ := at_of_beAt hklen
    split_ifs at h₁ with hlt'
    obtain ⟨k, hk, h₁⟩ := Outcome.bind_eq_ok.mp h₁
    obtain ⟨hatk, hlen⟩ := at_of_slice hk
    obtain rfl : klen = k.length := by omega
    obtain ⟨key, hkey, h₁⟩ := Outcome.bind_eq_ok.mp h₁
    rw [sliceFrom_of_le (by omega), Outcome.ok_bind] at h₁
    obtain ⟨⟨v, n⟩, hn, h₁⟩ := Outcome.bind_eq_ok.mp h₁
    obtain ⟨rfl, rfl⟩ := Outcome.ok_pair_inj h₁
    obtain ⟨t, ht, hat, rfl, hv⟩ := hvalue _ _ _ hn
    have hat := hat.of_drop (by omega)
    rw [Nat.add_zero] at hat
    obtain ⟨es, hlen, hes, hates, rfl, ps, hps, rfl⟩ := ih (by have := hat.length_le; omega) h₂
    refine ⟨(k, t) :: es, by simp [hlen], List.forall_mem_cons.mpr ⟨⟨hklt, ht⟩, hes⟩, ?_, ?_,
      (key, v) :: ps, ?_, rfl⟩
    · refine at_append_iff.mpr ⟨hatlen, ?_⟩
      rw [length_beBytes]
      exact at_append_iff.mpr ⟨hatk, at_append_iff.mpr ⟨hat, hates⟩⟩
    · simp only [Tlv.entriesBytes, List.length_append, length_beBytes]
      omega
    · exact Tlv.entriesValue_cons_eq_ok.mpr ⟨key, v, ps, readKey_eq_ok hkey, hv, hps, rfl⟩

end Sound

/-! ## No index leaves the buffer -/

section NoPanic

theorem itemStep_le (hle : ∀ b v n, value b = .ok (v, n) → n ≤ b.length) (s s' : List Value × ℕ)
    (hs : 0 < s.2 ∧ s.2 ≤ b.length) (h : itemStep value b s = .ok s') : 0 < s'.2 ∧ s'.2 ≤ b.length := by
  rw [itemStep, sliceFrom_of_le hs.2, Outcome.ok_bind] at h
  obtain ⟨⟨v, n⟩, hn, h⟩ := Outcome.bind_eq_ok.mp h
  have hn := hle _ _ _ hn
  rw [List.length_drop] at hn
  obtain rfl := Outcome.ok.inj h
  show 0 < s.2 + n ∧ s.2 + n ≤ b.length
  omega

theorem entryStep_le (hle : ∀ b v n, value b = .ok (v, n) → n ≤ b.length) (s s' : List (String × Value) × ℕ)
    (_hs : s.2 ≤ b.length) (h : entryStep keyLength keyData bad value b s = .ok s') : s'.2 ≤ b.length := by
  rw [entryStep] at h
  split_ifs at h with hlt
  obtain ⟨klen, hklen, h⟩ := Outcome.bind_eq_ok.mp h
  split_ifs at h with hlt'
  obtain ⟨k, -, h⟩ := Outcome.bind_eq_ok.mp h
  obtain ⟨key, -, h⟩ := Outcome.bind_eq_ok.mp h
  rw [sliceFrom_of_le (by omega), Outcome.ok_bind] at h
  obtain ⟨⟨v, n⟩, hn, h⟩ := Outcome.bind_eq_ok.mp h
  have hn := hle _ _ _ hn
  rw [List.length_drop] at hn
  obtain rfl := Outcome.ok.inj h
  show s.2 + 2 + klen + n ≤ b.length
  omega

theorem readKey_ne_panic (k : Bytes) : readKey bad k ≠ .panic := by
  rw [readKey]
  split <;> simp

theorem itemStep_ne_panic (hvalue : ∀ b' : Bytes, b'.length < b.length → value b' ≠ .panic) {s : List Value × ℕ}
    (hs : 0 < s.2 ∧ s.2 ≤ b.length) : itemStep value b s ≠ .panic := by
  rw [itemStep, sliceFrom_of_le hs.2, Outcome.ok_bind]
  refine Outcome.bind_ne_panic (hvalue _ ?_) fun _ _ => by simp
  rw [List.length_drop]
  omega

theorem entryStep_ne_panic (hvalue : ∀ b' : Bytes, b'.length < b.length → value b' ≠ .panic)
    {s : List (String × Value) × ℕ} : entryStep keyLength keyData bad value b s ≠ .panic := by
  rw [entryStep]
  split_ifs with hlt
  · simp
  refine Outcome.bind_ne_panic (beAt_ne_panic (by omega)) fun klen _ => ?_
  split_ifs with hlt'
  · simp
  refine Outcome.bind_ne_panic (slice_ne_panic (by omega) (by omega)) fun k _ => ?_
  refine Outcome.bind_ne_panic (readKey_ne_panic k) fun key _ => ?_
  rw [sliceFrom_of_le (by omega), Outcome.ok_bind]
  refine Outcome.bind_ne_panic (hvalue _ ?_) fun _ _ => by simp
  rw [List.length_drop]
  omega

theorem forCount_itemStep_ne_panic (hle : ∀ b v n, value b = .ok (v, n) → n ≤ b.length)
    (hvalue : ∀ b' : Bytes, b'.length < b.length → value b' ≠ .panic) (count : ℕ) (hb : 5 ≤ b.length) :
    forCount (itemStep value b) count ([], 5) ≠ .panic :=
  forCount_ne_panic (I := fun s => 0 < s.2 ∧ s.2 ≤ b.length) (itemStep_le hle)
    (fun _ => itemStep_ne_panic hvalue) count ([], 5) ⟨by decide, hb⟩

theorem forCount_entryStep_ne_panic (hle : ∀ b v n, value b = .ok (v, n) → n ≤ b.length)
    (hvalue : ∀ b' : Bytes, b'.length < b.length → value b' ≠ .panic) (count : ℕ) (hb : 5 ≤ b.length) :
    forCount (entryStep keyLength keyData bad value b) count ([], 5) ≠ .panic :=
  forCount_ne_panic (I := fun s => s.2 ≤ b.length) (entryStep_le hle)
    (fun _ _ => entryStep_ne_panic hvalue) count ([], 5) hb

end NoPanic

end VelocityMcp.NdaNative
