import VelocityMcp.Lib.JsonSyntax

/-!
# Lib.JsonWeights — a JSON text is at least as heavy as what is read from it

Bytes have weights, and a byte of a string has a price, at most the weight of anything that is read as that byte.
-/

namespace Lib.JsonSyntax

def weight (w : UInt8 → ℕ) (s : Bytes) : ℕ := (s.map w).sum

section Weight

variable {w : UInt8 → ℕ}

@[simp] theorem weight_nil : weight w [] = 0 := rfl

@[simp] theorem weight_cons (c : UInt8) (s : Bytes) : weight w (c :: s) = w c + weight w s := by simp [weight]

@[simp] theorem weight_append (s t : Bytes) : weight w (s ++ t) = weight w s + weight w t := by simp [weight]

theorem weight_suffix {s t : Bytes} (h : s <:+ t) : weight w s ≤ weight w t := by
  obtain ⟨u, rfl⟩ := h
  rw [weight_append]
  exact Nat.le_add_left _ _

theorem weight_skipBlanks (s : Bytes) : weight w (skipBlanks s) ≤ weight w s :=
  weight_suffix (List.dropWhile_suffix _)

theorem weight_of_skipBlanks {s r : Bytes} {c : UInt8} (h : skipBlanks s = c :: r) : weight w r ≤ weight w s := by
  have hle := @weight_skipBlanks w s
  rw [h, weight_cons] at hle
  omega

theorem weight_flatMap {f : UInt8 → Bytes} (s : Bytes) :
    weight w (s.flatMap f) = weight (fun c => weight w (f c)) s := by
  induction s with
  | nil => rfl
  | cons c s ih => rw [List.flatMap_cons, weight_append, ih, weight_cons]

theorem weight_eq_zero {s : Bytes} (h : ∀ c ∈ s, w c = 0) : weight w s = 0 := by
  induction s with
  | nil => rfl
  | cons c s ih => rw [weight_cons, h c List.mem_cons_self, ih fun d hd => h d (List.mem_cons_of_mem _ hd)]

end Weight

/-- At most, and as much only if. -/
def Tight (n m : ℕ) (Q : Prop) : Prop := n ≤ m ∧ (m ≤ n → Q)

theorem tight_of_lt {n m : ℕ} {Q : Prop} (h : n < m) : Tight n m Q := ⟨h.le, fun hle => absurd hle (Nat.not_le.mpr h)⟩

theorem tight_of_eq {n m : ℕ} {Q : Prop} (h : n = m) (hq : Q) : Tight n m Q := ⟨h.le, fun _ => hq⟩

theorem Tight.add {n n' m m' : ℕ} {Q Q' : Prop} (h : Tight n m Q) (h' : Tight n' m' Q') :
    Tight (n + n') (m + m') (Q ∧ Q') := by
  have h1 := h.1
  have h2 := h'.1
  exact ⟨by omega, fun hle => ⟨h.2 (by omega), h'.2 (by omega)⟩⟩

theorem Tight.imp {n m : ℕ} {Q Q' : Prop} (h : Tight n m Q) (hq : Q → Q') : Tight n m Q' := ⟨h.1, fun hle => hq (h.2 hle)⟩

theorem tight_weight {w w' : UInt8 → ℕ} {Q : UInt8 → Prop} (h : ∀ c, Tight (w c) (w' c) (Q c)) (s : Bytes) :
    Tight (weight w s) (weight w' s) (∀ c ∈ s, Q c) := by
  induction s with
  | nil => exact tight_of_eq rfl fun c hc => nomatch hc
  | cons c s ih =>
    rw [weight_cons, weight_cons]
    exact ((h c).add ih).imp List.forall_mem_cons.mpr

/-! ## The price of a value -/

section Price

variable (w price : UInt8 → ℕ)

mutual

/-- Words weigh what they weigh; numbers, brackets and commas are free. -/
def Tree.price : Tree → ℕ
  | .null => weight w [0x6e, 0x75, 0x6c, 0x6c]
  | .bool b => weight w (if b then [0x74, 0x72, 0x75, 0x65] else [0x66, 0x61, 0x6c, 0x73, 0x65])
  | .number _ => 0
  | .string chars => weight price chars
  | .array items => itemsPrice items
  | .object members => membersPrice members

def itemsPrice : List Tree → ℕ
  | [] => 0
  | t :: ts => t.price + itemsPrice ts

def membersPrice : List (Bytes × Tree) → ℕ
  | [] => 0
  | (key, t) :: ms => weight price key + t.price + membersPrice ms

end

/-- **No spelling of a byte is below its price.** -/
def Prices : Prop :=
  ∀ s x r, s.head? ≠ some 0x22 → takeChar s = some (x, r) → weight price x + weight w r ≤ weight w s

end Price

/-! ## What has been read -/

section Read

variable {w price : UInt8 → ℕ}

theorem price_readChars (h : Prices w price) {n : ℕ} {s chars r : Bytes} (hread : readChars n s = some (chars, r)) :
    weight price chars + weight w r ≤ weight w s := by
  induction n generalizing s chars with
  | zero => exact nomatch hread
  | succ n ih =>
    rw [readChars] at hread
    split_ifs at hread with hquote
    · obtain ⟨rfl, rfl⟩ := Prod.mk.inj (Option.some.inj hread)
      have hle := weight_suffix (w := w) (List.tail_suffix s)
      rw [weight_nil]
      omega
    · obtain ⟨⟨x, s'⟩, htake, hread⟩ := Option.bind_eq_some_iff.mp hread
      obtain ⟨⟨xs, s''⟩, hrest, hread⟩ := Option.bind_eq_some_iff.mp hread
      obtain ⟨rfl, rfl⟩ := Prod.mk.inj (Option.some.inj hread)
      have h1 := h _ _ _ hquote htake
      have h2 := ih hrest
      rw [weight_append]
      omega

theorem price_readString (h : Prices w price) {s chars r : Bytes} (hread : readString s = some (chars, r)) :
    weight price chars + weight w r ≤ weight w s := by
  rw [readString] at hread
  obtain ⟨⟨xs, s'⟩, hchars, hread⟩ := Option.bind_eq_some_iff.mp hread
  dsimp only at hread
  split_ifs at hread
  obtain ⟨rfl, rfl⟩ := Prod.mk.inj (Option.some.inj hread)
  exact price_readChars h hchars

theorem price_readKey (h : Prices w price) {s key r : Bytes} (hread : readKey s = some (key, r)) :
    weight price key + weight w r ≤ weight w s := by
  rw [readKey] at hread
  cases hs : skipBlanks s with
  | nil =>
    rw [hs] at hread
    cases hread
  | cons q s' =>
    rw [hs] at hread
    dsimp only at hread
    split_ifs at hread
    obtain ⟨⟨chars, s''⟩, hstring, hread⟩ := Option.bind_eq_some_iff.mp hread
    dsimp only at hread
    cases hu : skipBlanks s'' with
    | nil =>
      rw [hu] at hread
      cases hread
    | cons c u =>
      rw [hu] at hread
      dsimp only at hread
      split_ifs at hread
      obtain ⟨rfl, rfl⟩ := Prod.mk.inj (Option.some.inj hread)
      have h1 := @weight_of_skipBlanks w _ _ _ hs
      have h2 := @weight_of_skipBlanks w _ _ _ hu
      have h3 := price_readString h hstring
      omega

theorem takeIf_suffix (p : UInt8 → Bool) (s : Bytes) : (takeIf p s).2 <:+ s := by
  cases s with
  | nil => exact List.suffix_rfl
  | cons c s =>
    rw [takeIf]
    split_ifs
    · exact List.suffix_cons c s
    · exact List.suffix_rfl

theorem readFraction_suffix {s x r : Bytes} (h : readFraction s = some (x, r)) : r <:+ s := by
  rw [readFraction] at h
  dsimp only at h
  split_ifs at h
  · obtain ⟨-, rfl⟩ := Prod.mk.inj (Option.some.inj h)
    exact takeIf_suffix _ s
  · obtain ⟨-, rfl⟩ := Prod.mk.inj (Option.some.inj h)
    exact (List.dropWhile_suffix _).trans (takeIf_suffix _ s)

theorem readExponent_suffix {s x r : Bytes} (h : readExponent s = some (x, r)) : r <:+ s := by
  rw [readExponent] at h
  dsimp only at h
  split_ifs at h
  · obtain ⟨-, rfl⟩ := Prod.mk.inj (Option.some.inj h)
    exact takeIf_suffix _ s
  · obtain ⟨-, rfl⟩ := Prod.mk.inj (Option.some.inj h)
    exact (List.dropWhile_suffix _).trans ((takeIf_suffix _ _).trans (takeIf_suffix _ s))

theorem readNumber_suffix {s x r : Bytes} (h : readNumber s = some (x, r)) : r <:+ s := by
  rw [readNumber] at h
  dsimp only at h
  split_ifs at h
  obtain ⟨⟨fraction, s'⟩, hfraction, h⟩ := Option.bind_eq_some_iff.mp h
  obtain ⟨⟨exponent, s''⟩, hexponent, h⟩ := Option.bind_eq_some_iff.mp h
  obtain ⟨-, rfl⟩ := Prod.mk.inj (Option.some.inj h)
  exact (readExponent_suffix hexponent).trans ((readFraction_suffix hfraction).trans
    ((List.dropWhile_suffix _).trans (takeIf_suffix _ s)))

/-- What the reader of values gives is no heavier than its text. -/
def Fair (w price : UInt8 → ℕ) (value : Bytes → Option (Tree × Bytes)) : Prop :=
  ∀ s t r, value s = some (t, r) → t.price w price + weight w r ≤ weight w s

variable {value : Bytes → Option (Tree × Bytes)}

theorem price_readItems (hvalue : Fair w price value) {k : ℕ} {s r : Bytes} {ts : List Tree}
    (h : readItems value k s = some (ts, r)) : itemsPrice w price ts + weight w r ≤ weight w s := by
  induction k generalizing s ts with
  | zero => exact nomatch h
  | succ k ih =>
    obtain ⟨k', t, u, hk, ht, hmore | ⟨u', hu, heq⟩⟩ := of_readItems h
    · obtain ⟨u', ⟨ts', r'⟩, hu, hts, heq⟩ := hmore
      obtain ⟨rfl, rfl⟩ := Prod.mk.inj heq
      obtain rfl := Nat.succ.inj hk
      have h1 := hvalue _ _ _ ht
      have h2 := @weight_of_skipBlanks w _ _ _ hu
      have h3 := ih hts
      rw [itemsPrice]
      dsimp only
      omega
    · obtain ⟨rfl, rfl⟩ := Prod.mk.inj heq
      have h1 := hvalue _ _ _ ht
      have h2 := @weight_of_skipBlanks w _ _ _ hu
      rw [itemsPrice, itemsPrice]
      omega

theorem price_readMembers (hprices : Prices w price) (hvalue : Fair w price value) {k : ℕ} {s r : Bytes}
    {ms : List (Bytes × Tree)} (h : readMembers value k s = some (ms, r)) :
    membersPrice w price ms + weight w r ≤ weight w s := by
  induction k generalizing s ms with
  | zero => exact nomatch h
  | succ k ih =>
    obtain ⟨k', key, s', t, u, hk, hkey, ht, hmore | ⟨u', hu, heq⟩⟩ := of_readMembers h
    · obtain ⟨u', ⟨ms', r'⟩, hu, hms, heq⟩ := hmore
      obtain ⟨rfl, rfl⟩ := Prod.mk.inj heq
      obtain rfl := Nat.succ.inj hk
      have h1 := price_readKey hprices hkey
      have h2 := hvalue _ _ _ ht
      have h3 := @weight_of_skipBlanks w _ _ _ hu
      have h4 := ih hms
      rw [membersPrice]
      dsimp only
      omega
    · obtain ⟨rfl, rfl⟩ := Prod.mk.inj heq
      have h1 := price_readKey hprices hkey
      have h2 := hvalue _ _ _ ht
      have h3 := @weight_of_skipBlanks w _ _ _ hu
      rw [membersPrice, membersPrice]
      omega

theorem price_empty {s : Bytes} {v : Tree} (hv : v.price w price = 0) :
    v.price w price + weight w (skipBlanks s).tail ≤ weight w s := by
  have h1 := weight_suffix (w := w) (List.tail_suffix (skipBlanks s))
  have h2 := @weight_skipBlanks w s
  omega

theorem price_word {s word : Bytes} {n : ℕ} (h : s.take n = word) :
    weight w word + weight w (s.drop n) ≤ weight w s := by
  rw [← h, ← weight_append, List.take_append_drop]

/-- **A value is no heavier than its text**, for every depth. -/
theorem fair_readValue (hprices : Prices w price) (n : ℕ) : Fair w price (readValue n) := by
  induction n with
  | zero =>
    intro s t r h
    cases h
  | succ n ih =>
    intro s t r h
    rw [readValue] at h
    cases hs : skipBlanks s with
    | nil =>
      rw [hs] at h
      cases h
    | cons c u =>
      have htail := @weight_of_skipBlanks w _ _ _ hs
      have hwhole := @weight_skipBlanks w s
      rw [hs] at h hwhole
      dsimp only at h
      split_ifs at h with hquote hbrace hbracket htrue hfalse hnull
      · obtain ⟨⟨chars, r'⟩, hstring, h⟩ := Option.map_eq_some_iff.mp h
        obtain ⟨rfl, rfl⟩ := Prod.mk.inj h
        exact (price_readString hprices hstring).trans htail
      · rw [readObject] at h
        split_ifs at h
        · obtain ⟨rfl, rfl⟩ := Prod.mk.inj (Option.some.inj h)
          exact (price_empty rfl).trans htail
        · obtain ⟨⟨ms, r'⟩, hms, h⟩ := Option.map_eq_some_iff.mp h
          obtain ⟨rfl, rfl⟩ := Prod.mk.inj h
          exact (price_readMembers hprices ih hms).trans htail
      · rw [readArray] at h
        split_ifs at h
        · obtain ⟨rfl, rfl⟩ := Prod.mk.inj (Option.some.inj h)
          exact (price_empty rfl).trans htail
        · obtain ⟨⟨ts, r'⟩, hts, h⟩ := Option.map_eq_some_iff.mp h
          obtain ⟨rfl, rfl⟩ := Prod.mk.inj h
          exact (price_readItems ih hts).trans htail
      · obtain ⟨rfl, rfl⟩ := Prod.mk.inj (Option.some.inj h)
        exact (price_word htrue).trans hwhole
      · obtain ⟨rfl, rfl⟩ := Prod.mk.inj (Option.some.inj h)
        exact (price_word hfalse).trans hwhole
      · obtain ⟨rfl, rfl⟩ := Prod.mk.inj (Option.some.inj h)
        exact (price_word hnull).trans hwhole
      · obtain ⟨⟨x, r'⟩, hnumber, h⟩ := Option.map_eq_some_iff.mp h
        obtain ⟨rfl, rfl⟩ := Prod.mk.inj h
        have hle := weight_suffix (w := w) (readNumber_suffix hnumber)
        rw [Tree.price]
        dsimp only
        omega

/-- **No text of a value is lighter than the value's price.** -/
theorem price_le_of_read (hprices : Prices w price) {s : Bytes} {t : Tree} (h : read s = some t) :
    t.price w price ≤ weight w s := by
  rw [read] at h
  split at h
  · rename_i t' r hread
    split_ifs at h
    obtain rfl := Option.some.inj h
    exact (Nat.le_add_right _ _).trans (fair_readValue hprices _ _ _ _ hread)
  · cases h

end Read

end Lib.JsonSyntax
