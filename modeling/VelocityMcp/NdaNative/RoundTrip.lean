import VelocityMcp.NdaNative.Walkers

/-!
# NdaNative.RoundTrip — no walker panics; the TLV round trip; the two walkers agree

`skipTlvValue_mirrors`: the zero-copy walker against the decoder.
-/

namespace VelocityMcp.NdaNative

open Lib

/-! ## No index leaves the buffer -/

section NoPanic

variable {b : Bytes} {d : ℕ}

theorem skipItem_le {value : Bytes → Outcome SkipError ℕ} (hle : ∀ b n, value b = .ok n → n ≤ b.length)
    (off off' : ℕ) (hoff : off ≤ b.length) (h : skipItem value b off = .ok off') : off' ≤ b.length := by
  rw [skipItem, sliceFrom_of_le hoff, Outcome.ok_bind] at h
  obtain ⟨n, hn, h⟩ := Outcome.bind_eq_ok.mp h
  have hn := hle _ _ hn
  rw [List.length_drop] at hn
  rw [Outcome.ok.injEq] at h
  omega

theorem skipEntry_le {value : Bytes → Outcome SkipError ℕ} (hle : ∀ b n, value b = .ok n → n ≤ b.length)
    (off off' : ℕ) (h : skipEntry value b off = .ok off') : off' ≤ b.length := by
  rw [skipEntry] at h
  split_ifs at h with hlt
  obtain ⟨klen, hklen, h⟩ := Outcome.bind_eq_ok.mp h
  split_ifs at h with hlt'
  rw [sliceFrom_of_le (by omega), Outcome.ok_bind] at h
  obtain ⟨n, hn, h⟩ := Outcome.bind_eq_ok.mp h
  have hn := hle _ _ hn
  rw [List.length_drop] at hn
  rw [Outcome.ok.injEq] at h
  omega

theorem skip_le {n : ℕ} (h : skipTlvValueInner d b = .ok n) : n ≤ b.length := by
  obtain ⟨t, -, hat, rfl⟩ := skip_sound h
  have hle := hat.length_le
  omega

theorem skipItem_ne_panic {value : Bytes → Outcome SkipError ℕ} (hvalue : ∀ b, value b ≠ .panic) {off : ℕ}
    (hoff : off ≤ b.length) : skipItem value b off ≠ .panic :=
  Outcome.bind_ne_panic (sliceFrom_ne_panic hoff) fun _ _ =>
    Outcome.bind_ne_panic (hvalue _) fun _ _ => by simp

theorem skipEntry_ne_panic {value : Bytes → Outcome SkipError ℕ} (hvalue : ∀ b, value b ≠ .panic) {off : ℕ} :
    skipEntry value b off ≠ .panic := by
  rw [skipEntry]
  split_ifs with hlt
  · simp
  · refine Outcome.bind_ne_panic (beAt_ne_panic (by omega)) fun klen _ => ?_
    split_ifs with hlt'
    · simp
    · exact Outcome.bind_ne_panic (sliceFrom_ne_panic (by omega)) fun _ _ =>
        Outcome.bind_ne_panic (hvalue _) fun _ _ => by simp

/-- **The walker never panics.** -/
theorem skip_ne_panic : ∀ (d : ℕ) (b : Bytes), skipTlvValueInner d b ≠ .panic := by
  intro d
  induction d with
  | zero => intro b; simp [skipTlvValueInner]
  | succ d ih =>
    intro b
    rw [skipTlvValueInner]
    split_ifs with hb
    · simp
    have hlen : 0 < b.length := List.length_pos_iff.mpr hb
    refine Outcome.bind_ne_panic (byteAt_ne_panic hlen) fun x _ => ?_
    rw [skipTag]
    split_ifs
    · rw [skipString]
      split_ifs with h₁
      · simp
      · refine Outcome.bind_ne_panic (beAt_ne_panic (by omega)) fun len _ => ?_
        split_ifs <;> simp
    · simp
    · simp
    · simp
    · simp
    · simp
    · rw [skipArray]
      split_ifs with h₁
      · simp
      · refine Outcome.bind_ne_panic (beAt_ne_panic (by omega)) fun count _ => ?_
        split_ifs with h₂
        · simp
        · exact forCount_ne_panic (I := fun off => off ≤ b.length)
            (skipItem_le fun _ _ => skip_le) (fun _ => skipItem_ne_panic ih) count 5 (by omega)
    · rw [skipObject]
      split_ifs with h₁
      · simp
      · refine Outcome.bind_ne_panic (beAt_ne_panic (by omega)) fun count _ => ?_
        split_ifs with h₂
        · simp
        · exact forCount_ne_panic (I := fun off => off ≤ b.length)
            (fun off off' _ => skipEntry_le (fun _ _ => skip_le) off off')
            (fun _ _ => skipEntry_ne_panic ih) count 5 (by omega)
    · simp

theorem decode_le {v : Value} {n : ℕ} (h : decodeJsonValueInner d b = .ok (v, n)) : n ≤ b.length := by
  obtain ⟨t, -, hat, rfl, -⟩ := decode_sound h
  have hle := hat.length_le
  omega

theorem decodeUtf8_ne_panic (t : Bytes) : decodeUtf8 t ≠ .panic := by
  rw [decodeUtf8]
  split <;> simp

/-- **The decoder never panics.** -/
theorem decode_ne_panic : ∀ (d : ℕ) (b : Bytes), decodeJsonValueInner d b ≠ .panic := by
  intro d
  induction d with
  | zero => intro b; simp [decodeJsonValueInner]
  | succ d ih =>
    intro b
    rw [decodeJsonValueInner]
    split_ifs with hb
    · simp
    have hlen : 0 < b.length := List.length_pos_iff.mpr hb
    refine Outcome.bind_ne_panic (byteAt_ne_panic hlen) fun x _ => ?_
    rw [decodeTag]
    split_ifs
    · rw [decodeString]
      split_ifs with h₁
      · simp
      · refine Outcome.bind_ne_panic (beAt_ne_panic (by omega)) fun len _ => ?_
        split_ifs with h₂ h₃
        · simp
        · simp
        · exact Outcome.bind_ne_panic (slice_ne_panic (by omega) (by omega)) fun t _ =>
            Outcome.bind_ne_panic (decodeUtf8_ne_panic t) fun _ _ => by simp
    · rw [decodeInteger]
      split_ifs with h₁
      · simp
      · exact Outcome.bind_ne_panic (beAt_ne_panic (by omega)) fun _ _ => by simp
    · rw [decodeFloat]
      split_ifs with h₁
      · simp
      · exact Outcome.bind_ne_panic (beAt_ne_panic (by omega)) fun _ _ => by simp
    · rw [decodeBool]
      split_ifs with h₁
      · simp
      · exact Outcome.bind_ne_panic (byteAt_ne_panic (by omega)) fun _ _ => by simp
    · simp
    · rw [decodeArray]
      split_ifs with h₁
      · simp
      · refine Outcome.bind_ne_panic (beAt_ne_panic (by omega)) fun count _ => ?_
        split_ifs with h₂
        · simp
        · refine Outcome.bind_ne_panic ?_ fun _ _ => by simp
          exact forCount_itemStep_ne_panic (fun _ _ _ => decode_le) (fun b' _ => ih b') count (by omega)
    · rw [decodeObject]
      split_ifs with h₁
      · simp
      · refine Outcome.bind_ne_panic (beAt_ne_panic (by omega)) fun count _ => ?_
        split_ifs with h₂
        · simp
        · refine Outcome.bind_ne_panic ?_ fun _ _ => by simp
          rw [decodeEntry_eq]
          exact forCount_entryStep_ne_panic (fun _ _ _ => decode_le) (fun b' _ => ih b') count (by omega)
    · simp

end NoPanic

/-! ## A walker reads no further than the value -/

section Local

variable {b : Bytes} {v : Value} {n : ℕ}

theorem decodeJsonValue_take (h : decodeJsonValue b = .ok (v, n)) : decodeJsonValue (b.take n) = .ok (v, n) := by
  obtain ⟨t, ht, hat, rfl, hv⟩ := decode_sound h
  rw [decodeJsonValue, decode_of_at ht (hat.take (by omega)), hv, ofWire_ok, Outcome.ok_bind]

theorem decodeJsonValue_append (h : decodeJsonValue b = .ok (v, n)) (r : Bytes) :
    decodeJsonValue (b ++ r) = .ok (v, n) := by
  obtain ⟨t, ht, hat, rfl, hv⟩ := decode_sound h
  obtain ⟨q, hq⟩ := hat.drop
  rw [List.drop_zero] at hq
  rw [hq, List.append_assoc, decodeJsonValue, decode_of_at ht (at_zero _ _), hv, ofWire_ok, Outcome.ok_bind]

theorem skip_of_decode (h : decodeJsonValue b = .ok (v, n)) : skipTlvValue b = .ok n := by
  obtain ⟨t, ht, hat, rfl, -⟩ := decode_sound h
  exact skip_of_at ht hat

theorem value_of_decode (h : decodeJsonValue b = .ok (v, n)) {t : Tlv} (ht : t.Within (tlvMaxDepth + 1))
    (hat : At b 0 t.bytes) : t.value = .ok v := by
  have hdecode := h.symm.trans (decode_of_at ht hat)
  cases hv : t.value with
  | error e => rw [hv] at hdecode; exact absurd hdecode (by simp)
  | ok w =>
    rw [hv] at hdecode
    rw [(Outcome.ok_pair_inj hdecode).1]

theorem decodeJsonValue_nil : decodeJsonValue [] = .err .unexpectedEnd := rfl

theorem skipTlvValue_nil : skipTlvValue [] = .err .empty := rfl

end Local

/-! ## Values within the limits -/

/-- A value that the codec writes and reads back: of bounded depth, with texts, lists and keys within its limits, and
no integer above `i64::MAX`. -/
structure WithinLimits (v : Value) : Prop where
  wf : v.WF
  depth : v.depth ≤ tlvMaxDepth
  strings : v.All (Value.StringLe tlvMaxStringLen)
  entries : v.All (Value.EntriesLe tlvMaxElements)
  keys : v.All (Value.KeysLe 65535)
  ints : v.All Value.IntFits

theorem WithinLimits.decode {v : Value} (h : WithinLimits v) (rest : Bytes) :
    decodeJsonValue ((Tlv.ofValue v).bytes ++ rest) = .ok (v, (Tlv.ofValue v).bytes.length) := by
  have hwithin := Tlv.within_ofValue (Nat.lt_succ_iff.mpr h.depth) (Value.all_and.mpr ⟨h.strings, h.entries⟩)
    h.keys
  rw [decodeJsonValue, decode_of_at hwithin (at_zero _ rest), Tlv.value_ofValue h.wf, Tlv.onWire_eq_self h.ints,
    ofWire_ok, Outcome.ok_bind]

/-! ## The two walkers, and the round trip -/

section Results

variable {b : Bytes} {v : Value}

/-- **The TLV round trip, with its exact limits.** -/
theorem decodeJsonValue_encodeJsonValue (hv : v.WF) (hb : (encodeJsonValue v).toOutcome = .ok b)
    (rest : Bytes) :
    decodeJsonValue (b ++ rest) = .ok (v, b.length) ↔
      v.depth ≤ tlvMaxDepth ∧ v.All (Value.StringLe tlvMaxStringLen) ∧
        v.All (Value.EntriesLe tlvMaxElements) ∧ v.All Value.IntFits := by
  obtain ⟨hk, rfl⟩ := encodeJsonValue_eq_put.mp (Emit.toOutcome_eq_ok.mp hb)
  constructor
  · intro h
    obtain ⟨t, hwithin, -, -, ht⟩ := decode_sound h
    obtain ⟨hdepth, hbounded, -⟩ := Tlv.value_limits hwithin ht
    exact ⟨Nat.lt_succ_iff.mp hdepth, hbounded.imp fun _ h => h.1, hbounded.imp fun _ h => h.2.1,
      hbounded.imp fun _ h => h.2.2⟩
  · rintro ⟨hdepth, hstring, hentries, hint⟩
    exact WithinLimits.decode ⟨hv, hdepth, hstring, hentries, hk, hint⟩ rest

/-- `[true]`, with a byte behind it. -/
theorem decodeJsonValue_encodeJsonValue_pair :
    decodeJsonValue ([0x05, 0, 0, 0, 1, 0x03, 1] ++ [7]) = .ok (.array [.bool true], 7) :=
  (decodeJsonValue_encodeJsonValue (by simp [Value.WF, Value.KeysSorted, Value.All, Value.AllItems]) rfl
    [7]).mpr (by simp [Value.All, Value.AllItems, Value.depth, Value.itemsDepth, Value.StringLe,
      Value.EntriesLe, Value.IntFits, tlvMaxDepth, tlvMaxElements])

/-- **The zero-copy walker mirrors the decoder.**  It accepts what the decoder accepts and stops at the same
place; where it accepts more, the bytes are the encoding of a tree one of whose strings or keys is no valid
UTF-8, and the decoder says so.  Neither takes an index out of range. -/
theorem skipTlvValue_mirrors (b : Bytes) :
    (∀ v n, decodeJsonValue b = .ok (v, n) → skipTlvValue b = .ok n) ∧
      (∀ n, skipTlvValue b = .ok n → n ≤ b.length ∧
        ((∃ v, decodeJsonValue b = .ok (v, n)) ∨
          ∃ t u, b.take n = Tlv.bytes t ∧ t.HasText u ∧ fromUtf8 u = none ∧
            decodeJsonValue b = .err (.utf8 u))) ∧
      decodeJsonValue b ≠ .panic ∧ skipTlvValue b ≠ .panic := by
  refine ⟨fun v n h => ?_, fun n h => ⟨skip_le h, ?_⟩, decode_ne_panic _ b, skip_ne_panic _ b⟩
  · obtain ⟨t, ht, hat, rfl, -⟩ := decode_sound h
    exact skip_of_at ht hat
  · obtain ⟨t, ht, hat, rfl⟩ := skip_sound h
    have hdecode := decode_of_at ht hat
    cases hv : t.value with
    | ok v =>
      rw [hv] at hdecode
      exact Or.inl ⟨v, hdecode⟩
    | error e =>
      rw [hv] at hdecode
      obtain ⟨htext, hbad⟩ := Tlv.hasText_of_value_eq_error ht hv
      obtain ⟨q, hq⟩ := hat.drop
      rw [List.drop_zero] at hq
      exact Or.inr ⟨t, e.bytes, by rw [hq, List.take_left], htext, hbad, hdecode⟩

end Results

end VelocityMcp.NdaNative
