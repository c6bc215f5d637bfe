import VelocityMcp.NdaNative.Loops

/-!
# NdaNative.Walkers — the decoder and the zero-copy walker accept the same format

`skip_sound`, `decode_sound`: what a walker accepts is the encoding of a wire tree.
-/

namespace VelocityMcp.NdaNative

open Lib

/-! ## On the encoding of a tree -/

section Complete

variable {b : Bytes} {d n off : ℕ}

theorem skipTlvValueInner_of_at {x : UInt8} (h : At b 0 [x]) :
    skipTlvValueInner (d + 1) b = skipTag (skipTlvValueInner d) b x := by
  have hb : b ≠ [] := by
    rintro rfl
    exact absurd h.length_le (by simp)
  rw [skipTlvValueInner, if_neg hb, h.byteAt, Outcome.ok_bind]

theorem decodeJsonValueInner_of_at {x : UInt8} (h : At b 0 [x]) :
    decodeJsonValueInner (d + 1) b = decodeTag (decodeJsonValueInner d) b x := by
  have hb : b ≠ [] := by
    rintro rfl
    exact absurd h.length_le (by simp)
  rw [decodeJsonValueInner, if_neg hb, h.byteAt, Outcome.ok_bind]

theorem skipItems_of_at {value : Bytes → Outcome SkipError ℕ} {ts : List Tlv}
    (hvalue : ∀ t ∈ ts, ∀ b, At b 0 t.bytes → value b = .ok t.bytes.length)
    (h : At b off (Tlv.itemsBytes ts)) :
    forCount (skipItem value b) ts.length off = .ok (off + (Tlv.itemsBytes ts).length) := by
  induction ts generalizing off with
  | nil => simp [Tlv.itemsBytes]
  | cons t ts ih =>
    obtain ⟨ht, hts⟩ := at_append_iff.mp h
    have hoff : off ≤ b.length := by have := ht.length_le; omega
    have hstep : skipItem value b off = .ok (off + t.bytes.length) := by
      rw [skipItem, sliceFrom_of_le hoff, Outcome.ok_bind,
        hvalue t List.mem_cons_self _ (at_drop ht), Outcome.ok_bind]
    rw [List.length_cons, forCount_succ, hstep, Outcome.ok_bind,
      ih (fun t ht => hvalue t (List.mem_cons_of_mem _ ht)) hts, Tlv.itemsBytes, List.length_append,
      Nat.add_assoc]

theorem skipEntries_of_at {value : Bytes → Outcome SkipError ℕ} {es : List (Bytes × Tlv)}
    (hkey : ∀ e ∈ es, e.1.length < 256 ^ 2)
    (hvalue : ∀ e ∈ es, ∀ b, At b 0 e.2.bytes → value b = .ok e.2.bytes.length)
    (h : At b off (Tlv.entriesBytes es)) :
    forCount (skipEntry value b) es.length off = .ok (off + (Tlv.entriesBytes es).length) := by
  induction es generalizing off with
  | nil => simp [Tlv.entriesBytes]
  | cons e es ih =>
    obtain ⟨k, t⟩ := e
    obtain ⟨hlen, hrest⟩ := at_append_iff.mp h
    obtain ⟨hk, hrest⟩ := at_append_iff.mp hrest
    obtain ⟨ht, hes⟩ := at_append_iff.mp hrest
    rw [length_beBytes] at hk ht hes
    have h₁ : ¬ b.length < off + 2 := by have := hk.length_le; omega
    have h₂ : ¬ b.length < off + (2 + k.length) := by have := ht.length_le; omega
    have hoff : off + (2 + k.length) = off + 2 + k.length := by omega
    have hstep : skipEntry value b off = .ok (off + 2 + k.length + t.bytes.length) := by
      rw [skipEntry, if_neg h₁, hlen.beAt (hkey _ List.mem_cons_self), Outcome.ok_bind, if_neg h₂, hoff,
        sliceFrom_of_le (by have := ht.length_le; omega), Outcome.ok_bind,
        hvalue _ List.mem_cons_self _ (at_drop ht), Outcome.ok_bind]
    rw [List.length_cons, forCount_succ, hstep, Outcome.ok_bind,
      ih (fun e he => hkey e (List.mem_cons_of_mem _ he))
        (fun e he => hvalue e (List.mem_cons_of_mem _ he)) hes]
    simp only [Tlv.entriesBytes, List.length_append, length_beBytes]
    congr 1
    omega

/-- **The walker on an encoding**: it stops where the encoding ends. -/
theorem skip_of_at {t : Tlv} (h : t.Within d) :
    ∀ {b : Bytes}, At b 0 t.bytes → skipTlvValueInner d b = .ok t.bytes.length := by
  induction h with
  | @string d t len =>
    intro b hb
    obtain ⟨htag, hb⟩ := at_cons_iff.mp hb
    obtain ⟨hlen, ht⟩ := at_append_iff.mp hb
    rw [length_beBytes] at ht
    have hle : 5 + t.length ≤ b.length := ht.length_le
    have hlim : t.length < 256 ^ 4 := lt_of_le_of_lt len (by decide)
    rw [skipTlvValueInner_of_at htag, skipTag, if_pos rfl, skipString, if_neg (by omega), hlen.beAt hlim,
      Outcome.ok_bind, if_neg (not_lt.mpr len), if_neg (by omega), Tlv.length_bytes_string]
  | @int d i =>
    intro b hb
    obtain ⟨htag, hb⟩ := at_cons_iff.mp hb
    have hle := hb.length_le
    rw [length_beBytes] at hle
    rw [skipTlvValueInner_of_at htag]
    simp [skipTag, Tlv.bytes, show ¬ b.length < 9 by omega]
  | @bool d x =>
    intro b hb
    have hle := hb.length_le
    obtain ⟨htag, -⟩ := at_cons_iff.mp hb
    rw [skipTlvValueInner_of_at htag]
    simp only [Tlv.bytes, List.length_cons, List.length_nil] at hle
    simp [skipTag, Tlv.bytes, show ¬ b.length < 2 by omega]
  | @null d =>
    intro b hb
    rw [skipTlvValueInner_of_at hb]
    rfl
  | @array d items count _ ih =>
    intro b hb
    obtain ⟨htag, hb⟩ := at_cons_iff.mp hb
    obtain ⟨hlen, hitems⟩ := at_append_iff.mp hb
    rw [length_beBytes] at hitems
    have hle := hitems.length_le
    have hlim : items.length < 256 ^ 4 := lt_of_le_of_lt count (by decide)
    rw [skipTlvValueInner_of_at htag]
    show skipArray _ b = _
    rw [skipArray, if_neg (by omega), hlen.beAt hlim, Outcome.ok_bind, if_neg (not_lt.mpr count),
      skipItems_of_at (fun t ht b hb => ih t ht hb) hitems, Tlv.length_bytes_array]
  | @object d entries count key _ ih =>
    intro b hb
    obtain ⟨htag, hb⟩ := at_cons_iff.mp hb
    obtain ⟨hlen, hentries⟩ := at_append_iff.mp hb
    rw [length_beBytes] at hentries
    have hle := hentries.length_le
    have hlim : entries.length < 256 ^ 4 := lt_of_le_of_lt count (by decide)
    rw [skipTlvValueInner_of_at htag]
    show skipObject _ b = _
    rw [skipObject, if_neg (by omega), hlen.beAt hlim, Outcome.ok_bind, if_neg (not_lt.mpr count),
      skipEntries_of_at key (fun e he b hb => ih e he hb) hentries, Tlv.length_bytes_object]
  | @float d bits =>
    intro b hb
    obtain ⟨htag, hb⟩ := at_cons_iff.mp hb
    have hle := hb.length_le
    rw [length_beBytes] at hle
    rw [skipTlvValueInner_of_at htag]
    simp [skipTag, Tlv.bytes, show ¬ b.length < 9 by omega]

/-- The decoder's view of a wire value: the first bad string is its error. -/
def ofWire {α : Type} (x : Except BadUtf8 α) : Outcome DecodeError α :=
  (Outcome.ofExcept x).mapErr fun e => .utf8 e.bytes

@[simp] theorem ofWire_ok {α : Type} (a : α) : ofWire (.ok a) = .ok a := rfl

@[simp] theorem ofWire_error {α : Type} (e : BadUtf8) : ofWire (.error e : Except _ α) = .err (.utf8 e.bytes) :=
  rfl

theorem decodeItem_eq (value : Bytes → Outcome DecodeError (Value × ℕ)) : decodeItem value = itemStep value := rfl

theorem decodeEntry_eq (value : Bytes → Outcome DecodeError (Value × ℕ)) :
    decodeEntry value = entryStep .keyLength .keyData (fun e => .utf8 e.bytes) value := rfl

/-- **The decoder on an encoding**: the value of the tree, or its first bad string. -/
theorem decode_of_at {t : Tlv} (h : t.Within d) : ∀ {b : Bytes}, At b 0 t.bytes →
    decodeJsonValueInner d b = ofWire t.value >>= fun v => .ok (v, t.bytes.length) := by
  induction h with
  | @string d t len =>
    intro b hb
    obtain ⟨htag, hb⟩ := at_cons_iff.mp hb
    obtain ⟨hlen, ht⟩ := at_append_iff.mp hb
    rw [length_beBytes] at ht
    have hle : 5 + t.length ≤ b.length := ht.length_le
    have hlim : t.length < 256 ^ 4 := lt_of_le_of_lt len (by decide)
    rw [decodeJsonValueInner_of_at htag, decodeTag, if_pos rfl, decodeString, if_neg (by omega),
      hlen.beAt hlim, Outcome.ok_bind, if_neg (not_lt.mpr len), if_neg (by omega), ht.slice rfl,
      Outcome.ok_bind, decodeUtf8, Tlv.value, Tlv.length_bytes_string]
    cases fromUtf8 t <;> rfl
  | @int d i =>
    intro b hb
    obtain ⟨htag, hb⟩ := at_cons_iff.mp hb
    have hle := hb.length_le
    rw [length_beBytes] at hle
    rw [decodeJsonValueInner_of_at htag]
    show decodeInteger b = _
    rw [decodeInteger, if_neg (by omega), hb.beAt (by exact i.toUInt64.toNat_lt), Outcome.ok_bind]
    simp [Tlv.value, Tlv.bytes]
  | @bool d x =>
    intro b hb
    have hle := hb.length_le
    obtain ⟨htag, hx⟩ := at_cons_iff.mp hb
    rw [decodeJsonValueInner_of_at htag]
    simp only [Tlv.bytes, List.length_cons, List.length_nil] at hle
    show decodeBool b = _
    rw [decodeBool, if_neg (by omega), hx.byteAt, Outcome.ok_bind]
    rfl
  | @null d =>
    intro b hb
    rw [decodeJsonValueInner_of_at hb]
    rfl
  | @array d items count _ ih =>
    intro b hb
    obtain ⟨htag, hb⟩ := at_cons_iff.mp hb
    obtain ⟨hlen, hitems⟩ := at_append_iff.mp hb
    rw [length_beBytes] at hitems
    have hle := hitems.length_le
    have hlim : items.length < 256 ^ 4 := lt_of_le_of_lt count (by decide)
    rw [decodeJsonValueInner_of_at htag]
    show decodeArray _ b = _
    rw [decodeArray, if_neg (by omega), hlen.beAt hlim, Outcome.ok_bind, if_neg (not_lt.mpr count), decodeItem_eq,
      items_of_at (by decide) (fun t ht b _ hb => ih t ht hb) hitems, Tlv.value, Tlv.length_bytes_array]
    cases Tlv.itemsValue items <;> rfl
  | @object d entries count key _ ih =>
    intro b hb
    obtain ⟨htag, hb⟩ := at_cons_iff.mp hb
    obtain ⟨hlen, hentries⟩ := at_append_iff.mp hb
    rw [length_beBytes] at hentries
    have hle := hentries.length_le
    have hlim : entries.length < 256 ^ 4 := lt_of_le_of_lt count (by decide)
    rw [decodeJsonValueInner_of_at htag]
    show decodeObject _ b = _
    rw [decodeObject, if_neg (by omega), hlen.beAt hlim, Outcome.ok_bind, if_neg (not_lt.mpr count), decodeEntry_eq,
      entries_of_at key (fun e he b _ hb => ih e he hb) hentries, Tlv.value, Tlv.length_bytes_object]
    cases Tlv.entriesValue entries <;> rfl
  | @float d bits =>
    intro b hb
    obtain ⟨htag, hb⟩ := at_cons_iff.mp hb
    have hle := hb.length_le
    rw [length_beBytes] at hle
    rw [decodeJsonValueInner_of_at htag]
    show decodeFloat b = _
    rw [decodeFloat, if_neg (by omega), hb.beAt (by exact bits.toNat_lt), Outcome.ok_bind]
    simp [Tlv.value, Tlv.bytes]

end Complete

/-! ## What is accepted is an encoding -/

section Sound

variable {b : Bytes} {d n off off' : ℕ} {P : Tlv → Prop}

theorem at_intBytes {w : Bytes} (hw : w.length = 8) {x : UInt8} (h : At b 0 [x]) (h' : At b 1 w) :
    At b 0 (x :: beBytes 8 (UInt64.ofNat (beNat w)).toNat) := by
  refine at_cons_iff.mpr ⟨h, ?_⟩
  have hlt : beNat w < 2 ^ 64 := by
    have := beNat_lt w
    rw [hw] at this
    exact this
  rw [UInt64.toNat_ofNat_of_lt' hlt, ← hw, beBytes_beNat]
  exact h'

theorem skipItems_sound {value : Bytes → Outcome SkipError ℕ}
    (hvalue : ∀ b n, value b = .ok n → ∃ t, P t ∧ At b 0 t.bytes ∧ n = t.bytes.length) :
    ∀ {count off : ℕ}, off ≤ b.length → forCount (skipItem value b) count off = .ok off' →
      ∃ ts, ts.length = count ∧ (∀ t ∈ ts, P t) ∧ At b off (Tlv.itemsBytes ts) ∧
        off' = off + (Tlv.itemsBytes ts).length := by
  intro count
  induction count with
  | zero =>
    intro off hoff h
    rw [forCount_zero, Outcome.ok.injEq] at h
    exact ⟨[], rfl, by simp, at_nil hoff, by simp [Tlv.itemsBytes, h]⟩
  | succ count ih =>
    intro off hoff h
    rw [forCount_succ] at h
    obtain ⟨off₁, h₁, h₂⟩ := Outcome.bind_eq_ok.mp h
    rw [skipItem, sliceFrom_of_le hoff, Outcome.ok_bind] at h₁
    obtain ⟨n, hn, h₁⟩ := Outcome.bind_eq_ok.mp h₁
    rw [Outcome.ok.injEq] at h₁
    obtain ⟨t, ht, hat, rfl⟩ := hvalue _ _ hn
    have hat := hat.of_drop hoff
    rw [Nat.add_zero] at hat
    obtain ⟨ts, hlen, hts, hats, rfl⟩ := ih (by have := hat.length_le; omega) h₂
    subst h₁
    refine ⟨t :: ts, by simp [hlen], ?_, at_append_iff.mpr ⟨hat, hats⟩, ?_⟩
    · intro u hu
      rcases List.mem_cons.mp hu with rfl | hu
      · exact ht
      · exact hts u hu
    · rw [Tlv.itemsBytes, List.length_append]
      omega

theorem skipEntries_sound {value : Bytes → Outcome SkipError ℕ}
    (hvalue : ∀ b n, value b = .ok n → ∃ t, P t ∧ At b 0 t.bytes ∧ n = t.bytes.length) :
    ∀ {count off : ℕ}, off ≤ b.length → forCount (skipEntry value b) count off = .ok off' →
      ∃ es : List (Bytes × Tlv), es.length = count ∧ (∀ e ∈ es, e.1.length < 256 ^ 2 ∧ P e.2) ∧
        At b off (Tlv.entriesBytes es) ∧ off' = off + (Tlv.entriesBytes es).length := by
  intro count
  induction count with
  | zero =>
    intro off hoff h
    rw [forCount_zero, Outcome.ok.injEq] at h
    exact ⟨[], rfl, by simp, at_nil hoff, by simp [Tlv.entriesBytes, h]⟩
  | succ count ih =>
    intro off hoff h
    rw [forCount_succ] at h
    obtain ⟨off₁, h₁, h₂⟩ := Outcome.bind_eq_ok.mp h
    rw [skipEntry] at h₁
    split_ifs at h₁ with hlt
    obtain ⟨klen, hklen, h₁⟩ := Outcome.bind_eq_ok.mp h₁
    obtain ⟨hatlen, hklt⟩ := at_of_beAt hklen
    split_ifs at h₁ with hlt'
    obtain ⟨k, hatk, rfl⟩ := exists_at (b := b) (i := off + 2) (n := klen) (by omega)
    rw [sliceFrom_of_le (by omega), Outcome.ok_bind] at h₁
    obtain ⟨n, hn, h₁⟩ := Outcome.bind_eq_ok.mp h₁
    rw [Outcome.ok.injEq] at h₁
    obtain ⟨t, ht, hat, rfl⟩ := hvalue _ _ hn
    have hat := hat.of_drop (by omega)
    rw [Nat.add_zero, ← Nat.add_assoc] at hat
    have hoff₁ : off + 2 + k.length + t.bytes.length = off₁ := by omega
    rw [← hoff₁] at h₂
    obtain ⟨es, hlen, hes, hates, rfl⟩ := ih (by have := hat.length_le; omega) h₂
    refine ⟨(k, t) :: es, by simp [hlen], ?_, ?_, ?_⟩
    · intro e he
      rcases List.mem_cons.mp he with rfl | he
      · exact ⟨hklt, ht⟩
      · exact hes e he
    · refine at_append_iff.mpr ⟨hatlen, ?_⟩
      rw [length_beBytes]
      exact at_append_iff.mpr ⟨hatk, at_append_iff.mpr ⟨hat, hates⟩⟩
    · simp only [Tlv.entriesBytes, List.length_append, length_beBytes]
      omega

/-- **What the walker accepts** is the encoding of a tree within the limits. -/
theorem skip_sound : ∀ {d : ℕ} {b : Bytes} {n : ℕ}, skipTlvValueInner d b = .ok n →
    ∃ t : Tlv, t.Within d ∧ At b 0 t.bytes ∧ n = t.bytes.length := by
  intro d
  induction d with
  | zero => intro b n h; exact absurd h (by simp [skipTlvValueInner])
  | succ d ih =>
    intro b n h
    rw [skipTlvValueInner] at h
    split_ifs at h with hb
    obtain ⟨x, hx, h⟩ := Outcome.bind_eq_ok.mp h
    have hat := at_of_byteAt hx
    rw [skipTag] at h
    split_ifs at h with h₁ h₂ h₃ h₄ h₅ h₆ h₇ h₈
    · subst h₁
      rw [skipString] at h
      split_ifs at h with hlen
      obtain ⟨len, hlen', h⟩ := Outcome.bind_eq_ok.mp h
      split_ifs at h with hmax hbody
      obtain ⟨t, hatt, rfl⟩ := exists_at (b := b) (i := 5) (n := len) (by omega)
      rw [Outcome.ok.injEq] at h
      refine ⟨.string t, .string (by omega), at_cons_iff.mpr ⟨hat, at_append_iff.mpr ⟨?_, ?_⟩⟩, ?_⟩
      · exact (at_of_beAt hlen').1
      · rwa [length_beBytes]
      · rw [Tlv.length_bytes_string, h]
    · obtain ⟨w, hatw, hw⟩ := exists_at (b := b) (i := 1) (n := 8) (by omega)
      rw [Outcome.ok.injEq] at h
      have hint := at_intBytes hw hat hatw
      rcases h₂ with rfl | rfl
      · exact ⟨.int (UInt64.ofNat (beNat w)).toInt64, .int _, by simpa [Tlv.bytes] using hint,
          by simp [Tlv.bytes, ← h]⟩
      · exact ⟨.float (UInt64.ofNat (beNat w)), .float _, hint, by simp [Tlv.bytes, ← h]⟩
    · subst h₄
      obtain ⟨w, hatw, hw⟩ := exists_at (b := b) (i := 1) (n := 1) (by omega)
      obtain ⟨y, rfl⟩ := List.length_eq_one_iff.mp hw
      rw [Outcome.ok.injEq] at h
      exact ⟨.bool y, .bool y, at_cons_iff.mpr ⟨hat, hatw⟩, by simp [Tlv.bytes, ← h]⟩
    · subst h₆
      rw [Outcome.ok.injEq] at h
      exact ⟨.null, .null, hat, by simp [Tlv.bytes, ← h]⟩
    · subst h₇
      rw [skipArray] at h
      split_ifs at h with hlen
      obtain ⟨count, hcount, h⟩ := Outcome.bind_eq_ok.mp h
      split_ifs at h with hmax
      obtain ⟨ts, rfl, hts, hats, rfl⟩ := skipItems_sound (fun b n => ih) (by omega) h
      refine ⟨.array ts, .array (by omega) hts, at_cons_iff.mpr ⟨hat, at_append_iff.mpr ⟨?_, ?_⟩⟩, ?_⟩
      · exact (at_of_beAt hcount).1
      · rwa [length_beBytes]
      · rw [Tlv.length_bytes_array]
    · subst h₈
      rw [skipObject] at h
      split_ifs at h with hlen
      obtain ⟨count, hcount, h⟩ := Outcome.bind_eq_ok.mp h
      split_ifs at h with hmax
      obtain ⟨es, rfl, hes, hates, rfl⟩ := skipEntries_sound (fun b n => ih) (by omega) h
      refine ⟨.object es, .object (by omega) (fun e he => (hes e he).1) fun e he => (hes e he).2,
        at_cons_iff.mpr ⟨hat, at_append_iff.mpr ⟨?_, ?_⟩⟩, ?_⟩
      · exact (at_of_beAt hcount).1
      · rwa [length_beBytes]
      · rw [Tlv.length_bytes_object]

theorem fromUtf8_of_decodeUtf8 {t : Bytes} {s : String} (h : decodeUtf8 t = .ok s) : fromUtf8 t = some s := by
  rw [decodeUtf8] at h
  split at h
  · next hs => rw [hs, Outcome.ok.inj h]
  · exact absurd h (by simp)

/-- **What the decoder accepts** is the encoding of a tree within the limits, and the answer its value. -/
theorem decode_sound : ∀ {d : ℕ} {b : Bytes} {v : Value} {n : ℕ}, decodeJsonValueInner d b = .ok (v, n) →
    ∃ t : Tlv, t.Within d ∧ At b 0 t.bytes ∧ n = t.bytes.length ∧ t.value = .ok v := by
  intro d
  induction d with
  | zero => intro b v n h; exact absurd h (by simp [decodeJsonValueInner])
  | succ d ih =>
    intro b v n h
    rw [decodeJsonValueInner] at h
    split_ifs at h with hb
    obtain ⟨x, hx, h⟩ := Outcome.bind_eq_ok.mp h
    have hat := at_of_byteAt hx
    rw [decodeTag] at h
    -- a case for each tag, and in each what was read is put together again
    split_ifs at h with h₁ h₂ h₃ h₄ h₅ h₆ h₇
    · subst h₁
      rw [decodeString] at h
      split_ifs at h with hlen
      obtain ⟨len, hlen', h⟩ := Outcome.bind_eq_ok.mp h
      split_ifs at h with hmax hbody
      obtain ⟨t, ht, h⟩ := Outcome.bind_eq_ok.mp h
      obtain ⟨s, hs, h⟩ := Outcome.bind_eq_ok.mp h
      obtain ⟨hatt, hl⟩ := at_of_slice ht
      obtain rfl : len = t.length := by omega
      obtain ⟨rfl, rfl⟩ := Outcome.ok_pair_inj h
      refine ⟨.string t, .string (by omega), at_cons_iff.mpr ⟨hat, at_append_iff.mpr ⟨?_, ?_⟩⟩, ?_, ?_⟩
      · exact (at_of_beAt hlen').1
      · rwa [length_beBytes]
      · rw [Tlv.length_bytes_string]
      · rw [Tlv.value, fromUtf8_of_decodeUtf8 hs]
    · subst h₂
      rw [decodeInteger] at h
      split_ifs at h with hlen
      obtain ⟨i, hi, h⟩ := Outcome.bind_eq_ok.mp h
      obtain ⟨hati, hlt⟩ := at_of_beAt hi
      obtain ⟨rfl, rfl⟩ := Outcome.ok_pair_inj h
      have hint := at_intBytes (length_beBytes 8 i) hat hati
      rw [beNat_beBytes, Nat.mod_eq_of_lt hlt] at hint
      exact ⟨.int (UInt64.ofNat i).toInt64, .int _, by simpa [Tlv.bytes] using hint, by simp [Tlv.bytes], rfl⟩
    · subst h₃
      rw [decodeFloat] at h
      split_ifs at h with hlen
      obtain ⟨f, hf, h⟩ := Outcome.bind_eq_ok.mp h
      obtain ⟨hatf, hlt⟩ := at_of_beAt hf
      obtain ⟨rfl, rfl⟩ := Outcome.ok_pair_inj h
      have hint := at_intBytes (length_beBytes 8 f) hat hatf
      rw [beNat_beBytes, Nat.mod_eq_of_lt hlt] at hint
      exact ⟨.float (UInt64.ofNat f), .float _, hint, by simp [Tlv.bytes], rfl⟩
    · subst h₄
      rw [decodeBool] at h
      split_ifs at h with hlen
      obtain ⟨y, hy, h⟩ := Outcome.bind_eq_ok.mp h
      obtain ⟨rfl, rfl⟩ := Outcome.ok_pair_inj h
      exact ⟨.bool y, .bool y, at_cons_iff.mpr ⟨hat, at_of_byteAt hy⟩, rfl, rfl⟩
    · subst h₅
      obtain ⟨rfl, rfl⟩ := Outcome.ok_pair_inj h
      exact ⟨.null, .null, hat, rfl, rfl⟩
    · subst h₆
      rw [decodeArray] at h
      split_ifs at h with hlen
      obtain ⟨count, hcount, h⟩ := Outcome.bind_eq_ok.mp h
      split_ifs at h with hmax
      obtain ⟨⟨items, off⟩, hitems, h⟩ := Outcome.bind_eq_ok.mp h
      obtain ⟨rfl, rfl⟩ := Outcome.ok_pair_inj h
      obtain ⟨ts, rfl, hts, hats, rfl, vs, hvs, rfl⟩ := items_sound (fun b v n => ih) (by omega) hitems
      refine ⟨.array ts, .array (by omega) hts, at_cons_iff.mpr ⟨hat, at_append_iff.mpr ⟨?_, ?_⟩⟩, ?_, ?_⟩
      · exact (at_of_beAt hcount).1
      · rwa [length_beBytes]
      · rw [Tlv.length_bytes_array]
      · rw [Tlv.value, hvs, Except.map]
    · subst h₇
      rw [decodeObject] at h
      split_ifs at h with hlen
      obtain ⟨count, hcount, h⟩ := Outcome.bind_eq_ok.mp h
      split_ifs at h with hmax
      obtain ⟨⟨map, off⟩, hmap, h⟩ := Outcome.bind_eq_ok.mp h
      obtain ⟨rfl, rfl⟩ := Outcome.ok_pair_inj h
      rw [decodeEntry_eq] at hmap
      obtain ⟨es, rfl, hes, hates, rfl, ps, hps, rfl⟩ := entries_sound (fun b v n => ih) (by omega) hmap
      refine ⟨.object es, .object (by omega) (fun e he => (hes e he).1) (fun e he => (hes e he).2),
        at_cons_iff.mpr ⟨hat, at_append_iff.mpr ⟨?_, ?_⟩⟩, ?_, ?_⟩
      · exact (at_of_beAt hcount).1
      · rwa [length_beBytes]
      · rw [Tlv.length_bytes_object]
      · rw [Tlv.value, hps, Except.map]

end Sound

end VelocityMcp.NdaNative
