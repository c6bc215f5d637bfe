import VelocityMcp.Lib.Bytes
import VelocityMcp.Lib.Fuel
import VelocityMcp.Lib.Machine

/-!
# Guest.OutputBuffer — where MicroPython's output is captured (`wasi_main.c`)

`output_in_bounds_iff`: a run stays in bounds exactly if all its appends fit.
-/

namespace VelocityMcp.OutputBuffer

open Lib

/-! ## The code -/

/-- A `size_t` has 32 bits. -/
def size (n : ℕ) : ℕ := n % 2 ^ 32

/-- A block of the heap; nothing is known of a byte that has not been written. -/
abbrev Block : Type := List (Option UInt8)

/-- `output_buf`, `output_len` and `output_cap`. -/
structure Output where
  buf : Option Block
  len : ℕ
  cap : ℕ
deriving DecidableEq, Repr

/-- Before the first output. -/
def initial : Output := ⟨none, 0, 0⟩

/-- `while (new_cap < need) new_cap *= 2`. -/
def growCapacity (need : ℕ) : ℕ → ℕ → Run Unit ℕ
  | 0, newCap => if newCap < need then .outOfFuel () else .done newCap
  | fuel + 1, newCap => if newCap < need then growCapacity need fuel (size (newCap * 2)) else .done newCap

/-- `realloc`, when it finds room: what fits of the old block, and bytes that nobody has written. -/
def resize (newCap : ℕ) (block : Block) : Block :=
  block.take newCap ++ List.replicate (newCap - block.length) none

/-- A block into which bytes have been written from an index on. -/
def written (i : ℕ) (bytes : Bytes) (block : Block) : Block :=
  block.take i ++ (bytes.map some ++ block.drop (i + bytes.length))

namespace Output

/-- Bytes are written from an index on; outside the block that is undefined. -/
def store (i : ℕ) (bytes : Bytes) (s : Output) : Run Unit Output :=
  match s.buf with
  | none => .undefined
  | some block =>
    if i + bytes.length ≤ block.length then .done { s with buf := some (written i bytes block) } else .undefined

/-- The growth of the buffer; `found` tells whether `realloc` finds room. -/
def grow (fuel : ℕ) (found : Bool) (need : ℕ) (s : Output) : Run Unit Output := do
  let newCap ← growCapacity need fuel (if s.cap = 0 then 4096 else size (s.cap * 2))
  .done { s with buf := if found then some (resize newCap (s.buf.getD [])) else none, cap := newCap }

/-- The string, its length, and the NUL. -/
def put (str : Bytes) (s : Output) : Run Unit Output := do
  let s ← s.store s.len str
  let s := { s with len := size (s.len + str.length) }
  s.store s.len [0]

end Output

/-- On a heap block that knows how long it is. -/
def outputAppend (fuel : ℕ) (found : Bool) (str : Bytes) (s : Output) : Run Unit Output :=
  if size (s.len + str.length) > s.cap then s.grow fuel found (size (s.len + str.length)) >>= Output.put str
  else s.put str

def outputReset (s : Output) : Run Unit Output :=
  match s.buf with
  | none => .done { s with len := 0 }
  | some _ => (s.store 0 [0]).map fun s => { s with len := 0 }

/-- `mp_wasi_get_output`: the block, or the empty literal. -/
def mpWasiGetOutput (s : Output) : Block := s.buf.getD [some 0]

def mpWasiGetOutputLen (s : Output) : ℕ := s.len

/-! ## Runs -/

/-- What is done to the buffer; of each append, whether `realloc` finds room if it is called. -/
inductive Operation where
  | reset
  | append (str : Bytes) (found : Bool)
deriving DecidableEq, Repr

/-- One operation. -/
def step (fuel : ℕ) (s : Output) : Operation → Run Unit Output
  | .reset => outputReset s
  | .append str found => outputAppend fuel found str s

/-- The operations, one after another, from an empty buffer. -/
def run (fuel : ℕ) (ops : List Operation) : Run Unit Output := ops.foldlM (step fuel) initial

def after (text : Bytes) : Operation → Bytes
  | .reset => []
  | .append str _ => text ++ str

/-- What has been appended since the last reset. -/
def captured (ops : List Operation) : Bytes := ops.foldl after []

/-- The text is what is read: its length, and its bytes with a NUL behind them. -/
def Describes (s : Output) (text : Bytes) : Prop :=
  mpWasiGetOutputLen s = text.length ∧ (mpWasiGetOutput s).take (text.length + 1) = (text ++ [0]).map some

/-- The state after an operation that goes well; the loop makes fewer than 32 turns. -/
def next (s : Output) (op : Operation) : Output :=
  match step 32 s op with
  | .done s' => s'
  | _ => s

/-- **An append fits**: its end is not the end of the buffer; and where the buffer has to grow, it is no capacity
either, the largest capacity is beyond it, and there is room. -/
def Fits (s : Output) : Operation → Prop
  | .reset => True
  | .append str found => s.len + str.length ≠ s.cap ∧ (s.cap < s.len + str.length →
      s.len + str.length < 2 ^ 31 ∧ (¬∃ k, s.len + str.length = 4096 * 2 ^ k) ∧ found)

/-! ## The capacity -/

section Capacity

variable {need fuel k : ℕ}

theorem size_of_lt {n : ℕ} (h : n < 2 ^ 32) : size n = n := Nat.mod_eq_of_lt h

theorem capacity_le (hk : k ≤ 19) : 4096 * 2 ^ k ≤ 2 ^ 31 := by
  have hpow : 2 ^ k ≤ 2 ^ 19 := Nat.pow_le_pow_right Nat.two_pos hk
  omega

theorem size_double (hk : k < 19) : size (4096 * 2 ^ k * 2) = 4096 * 2 ^ (k + 1) := by
  have hle := capacity_le (k := k + 1) hk
  rw [Nat.mul_assoc, ← Nat.pow_succ]
  exact size_of_lt (by omega)

theorem size_double_last : size (4096 * 2 ^ 19 * 2) = 0 := rfl

theorem growCapacity_zero (hneed : 0 < need) (fuel : ℕ) : growCapacity need fuel 0 = .outOfFuel () := by
  induction fuel with
  | zero => rw [growCapacity, if_pos hneed]
  | succ fuel ih =>
    rw [growCapacity, if_pos hneed]
    exact ih

/-- **What the loop finds**: the first capacity that is enough. -/
theorem growCapacity_done {c : ℕ} (hk : k ≤ 19) (h : growCapacity need fuel (4096 * 2 ^ k) = .done c) :
    ∃ m, k ≤ m ∧ m ≤ 19 ∧ c = 4096 * 2 ^ m ∧ need ≤ c ∧ (k < m → 4096 * 2 ^ (m - 1) < need) := by
  induction fuel generalizing k with
  | zero =>
    rw [growCapacity] at h
    split_ifs at h with hlt
    obtain rfl := Run.done.inj h
    exact ⟨k, le_refl k, hk, rfl, Nat.not_lt.mp hlt, fun hkk => absurd hkk (lt_irrefl k)⟩
  | succ fuel ih =>
    rw [growCapacity] at h
    split_ifs at h with hlt
    · rcases Nat.lt_or_eq_of_le hk with hk | rfl
      · rw [size_double hk] at h
        obtain ⟨m, hkm, hm, hc, hneed, hleast⟩ := ih hk h
        refine ⟨m, by omega, hm, hc, hneed, fun _ => ?_⟩
        rcases Nat.lt_or_eq_of_le hkm with hkm | rfl
        · exact hleast hkm
        · exact hlt
      · rw [size_double_last, growCapacity_zero (Nat.zero_lt_of_lt hlt)] at h
        exact nomatch h
    · obtain rfl := Run.done.inj h
      exact ⟨k, le_refl k, hk, rfl, Nat.not_lt.mp hlt, fun hkk => absurd hkk (lt_irrefl k)⟩

/-- **The loop ends** if some capacity is enough. -/
theorem exists_growCapacity (hneed : need ≤ 2 ^ 31) (hk : k ≤ 19) (hfuel : 19 ≤ k + fuel) :
    ∃ c, growCapacity need fuel (4096 * 2 ^ k) = .done c := by
  induction fuel generalizing k with
  | zero =>
    obtain rfl : k = 19 := by omega
    exact ⟨_, if_neg (Nat.not_lt.mpr hneed)⟩
  | succ fuel ih =>
    rw [growCapacity]
    split_ifs with hlt
    · rcases Nat.lt_or_eq_of_le hk with hk | rfl
      · rw [size_double hk]
        exact ih hk (by omega)
      · exact absurd hneed (Nat.not_le.mpr hlt)
    · exact ⟨_, rfl⟩

theorem growCapacity_of_not_lt {c : ℕ} (h : ¬c < need) (fuel : ℕ) : growCapacity need fuel c = .done c := by
  cases fuel <;> exact if_neg h

theorem growCapacity_unique {fuel' start c c' : ℕ} (h : growCapacity need fuel start = .done c)
    (h' : growCapacity need fuel' start = .done c') : c = c' := by
  induction fuel generalizing fuel' start with
  | zero =>
    by_cases hlt : start < need
    · exact nomatch (if_pos hlt).symm.trans h
    · rw [growCapacity_of_not_lt hlt] at h h'
      exact Run.done.inj (h.symm.trans h')
  | succ fuel ih =>
    by_cases hlt : start < need
    · cases fuel' with
      | zero => exact nomatch (if_pos hlt).symm.trans h'
      | succ fuel' => exact ih ((if_pos hlt).symm.trans h) ((if_pos hlt).symm.trans h')
    · rw [growCapacity_of_not_lt hlt] at h h'
      exact Run.done.inj (h.symm.trans h')

end Capacity

/-! ## The buffer -/

def IsCapacity (c : ℕ) : Prop := ∃ k ≤ 19, c = 4096 * 2 ^ k

/-- The block is as long as it is said to be, and the text is at its front. -/
structure Ready (s : Output) (text : Bytes) (block : Block) : Prop where
  buf : s.buf = some block
  capacity : IsCapacity s.cap
  length : block.length = s.cap
  len : s.len = text.length
  front : block.take text.length = text.map some

/-- There is a NUL behind the text. -/
structure Holds (s : Output) (text : Bytes) (block : Block) : Prop extends Ready s text block where
  room : s.len < s.cap
  content : block.take (text.length + 1) = (text ++ [0]).map some

/-- There is no block yet, or it holds the text. -/
def Sound (s : Output) (text : Bytes) : Prop := (s = initial ∧ text = []) ∨ ∃ block, Holds s text block

section Buffer

variable {s s' : Output} {text str : Bytes} {block : Block} {fuel : ℕ} {found : Bool}

theorem IsCapacity.le {c : ℕ} (h : IsCapacity c) : c ≤ 2 ^ 31 := by
  obtain ⟨k, hk, rfl⟩ := h
  exact capacity_le hk

theorem length_written {i : ℕ} {bytes : Bytes} (h : i + bytes.length ≤ block.length) :
    (written i bytes block).length = block.length := by
  rw [written, List.length_append, List.length_append, List.length_take, List.length_map, List.length_drop]
  omega

theorem take_written {bytes : Bytes} (hcontent : block.take text.length = text.map some) :
    (written text.length bytes block).take (text ++ bytes).length = (text ++ bytes).map some := by
  rw [written, hcontent, ← List.append_assoc, ← List.map_append]
  exact List.take_left' (List.length_map some)

theorem front_of_content (h : block.take (text.length + 1) = (text ++ [0]).map some) :
    block.take text.length = text.map some := by
  have hfront := congrArg (List.take text.length) h
  rw [List.take_take, Nat.min_eq_left (Nat.le_succ _), List.map_append] at hfront
  exact hfront.trans (List.take_left' (List.length_map some))

/-- **Putting a string**: into a block with more room than that, and otherwise it is undefined. -/
theorem put_cases (h : Ready s text block) (str : Bytes) :
    (s.len + str.length < s.cap ∧ ∃ s' block', s.put str = .done s' ∧ Holds s' (text ++ str) block') ∨
      (¬s.len + str.length < s.cap ∧ s.put str = .undefined) := by
  have hle := h.capacity.le
  have hlength := h.length
  rw [Output.put, Output.store, h.buf]
  dsimp only
  by_cases hfits : s.len + str.length ≤ block.length
  · have hend : s.len + str.length = (text ++ str).length := by rw [List.length_append, h.len]
    have hwritten := length_written hfits
    rw [if_pos hfits, Run.done_bind, Output.store]
    dsimp only
    rw [size_of_lt (by omega)]
    by_cases hroom : s.len + str.length < s.cap
    · have hnul : s.len + str.length + [(0 : UInt8)].length ≤ (written s.len str block).length := by
        rw [hwritten, List.length_singleton]
        omega
      have hcontent := @take_written _ _ [0] (@take_written _ _ str h.front)
      rw [← h.len, ← hend, List.length_append, List.length_singleton] at hcontent
      have hlengths : (written (s.len + str.length) [0] (written s.len str block)).length = s.cap := by
        rw [length_written hnul, hwritten, hlength]
      rw [if_pos hnul]
      rw [hend] at hcontent hlengths ⊢
      exact .inl ⟨hend ▸ hroom, _, _, rfl,
        ⟨⟨rfl, h.capacity, hlengths, rfl, front_of_content hcontent⟩, hend ▸ hroom, hcontent⟩⟩
    · have hnul : ¬s.len + str.length + [(0 : UInt8)].length ≤ (written s.len str block).length := by
        rw [hwritten, List.length_singleton]
        omega
      rw [if_neg hnul]
      exact .inr ⟨hroom, rfl⟩
  · rw [if_neg hfits]
    exact .inr ⟨by omega, rfl⟩

/-! ### Growth -/

theorem capacity_lt_iff {a b : ℕ} : 4096 * 2 ^ a < 4096 * 2 ^ b ↔ a < b := by
  rw [Nat.mul_lt_mul_left (by decide), Nat.pow_lt_pow_iff_right (by decide)]

/-- The capacity that the loop begins with: the next one, or none if there is no next one. -/
theorem start_cases {cap : ℕ} (h : cap = 0 ∨ IsCapacity cap) :
    ((if cap = 0 then 4096 else size (cap * 2)) = 0 ∧ cap = 2 ^ 31) ∨
      ∃ k ≤ 19, (if cap = 0 then 4096 else size (cap * 2)) = 4096 * 2 ^ k ∧ ∀ j < k, 4096 * 2 ^ j ≤ cap := by
  rcases h with rfl | ⟨k, hk, rfl⟩
  · exact .inr ⟨0, Nat.zero_le 19, rfl, fun j hj => absurd hj (Nat.not_lt_zero j)⟩
  · have hpos : 4096 * 2 ^ k ≠ 0 := Nat.mul_ne_zero (by decide) (Nat.pow_pos Nat.two_pos).ne'
    rw [if_neg hpos]
    rcases Nat.lt_or_eq_of_le hk with hk | rfl
    · refine .inr ⟨k + 1, hk, size_double hk, fun j hj => ?_⟩
      rw [← not_lt, capacity_lt_iff]
      omega
    · exact .inl ⟨rfl, rfl⟩

/-- **When the loop finds more than is needed.** -/
theorem grown_of_done {cap need c : ℕ} (hcap : cap = 0 ∨ IsCapacity cap) (hlt : cap < need)
    (h : growCapacity need fuel (if cap = 0 then 4096 else size (cap * 2)) = .done c) :
    IsCapacity c ∧ need ≤ c ∧ (need < c → need < 2 ^ 31 ∧ ¬∃ k, need = 4096 * 2 ^ k) := by
  rcases start_cases hcap with ⟨hstart, -⟩ | ⟨k, hk, hstart, hbelow⟩
  · rw [hstart, growCapacity_zero (Nat.zero_lt_of_lt hlt)] at h
    exact nomatch h
  · rw [hstart] at h
    obtain ⟨m, hkm, hm, rfl, hneed, hleast⟩ := growCapacity_done hk h
    refine ⟨⟨m, hm, rfl⟩, hneed, fun hroom => ⟨lt_of_lt_of_le hroom (capacity_le hm), ?_⟩⟩
    rintro ⟨j, rfl⟩
    have hjm : j < m := capacity_lt_iff.mp hroom
    by_cases hlt' : k < m
    · have hmj := capacity_lt_iff.mp (hleast hlt')
      omega
    · exact absurd (hbelow j (by omega)) (Nat.not_le.mpr hlt)

theorem exists_grown {cap need : ℕ} (hcap : cap = 0 ∨ IsCapacity cap) (hlt : cap < need) (hneed : need < 2 ^ 31)
    (hpow : ¬∃ k, need = 4096 * 2 ^ k) :
    ∃ c, growCapacity need 32 (if cap = 0 then 4096 else size (cap * 2)) = .done c ∧ need < c := by
  rcases start_cases hcap with ⟨-, hlast⟩ | ⟨k, hk, hstart, -⟩
  · omega
  · rw [hstart]
    obtain ⟨c, hc⟩ := exists_growCapacity hneed.le hk (show 19 ≤ k + 32 by omega)
    obtain ⟨m, -, -, rfl, hle, -⟩ := growCapacity_done hk hc
    exact ⟨_, hc, lt_of_le_of_ne hle fun heq => hpow ⟨m, heq⟩⟩

/-- `realloc` keeps the text. -/
theorem take_resize {c : ℕ} (hc : block.length ≤ c) {n : ℕ} (hn : n ≤ block.length) :
    (resize c block).take n = block.take n ∧ (resize c block).length = c := by
  rw [resize, List.take_of_length_le hc]
  constructor
  · exact List.take_append_of_le_length hn
  · rw [List.length_append, List.length_replicate]
    omega

/-! ### Appending -/

theorem Sound.cap (h : Sound s text) : s.cap = 0 ∨ IsCapacity s.cap := by
  rcases h with ⟨rfl, -⟩ | ⟨block, hblock⟩
  · exact .inl rfl
  · exact .inr hblock.capacity

theorem Sound.len (h : Sound s text) : s.len = text.length ∧ s.len ≤ s.cap := by
  rcases h with ⟨rfl, rfl⟩ | ⟨block, hblock⟩
  · exact ⟨rfl, le_refl 0⟩
  · exact ⟨hblock.len, hblock.room.le⟩

/-- **Growing**: the block is new, or longer than before, and ready. -/
theorem ready_grown (h : Sound s text) {c : ℕ} (hcapacity : IsCapacity c) (hc : s.cap ≤ c) :
    Ready { s with buf := some (resize c (s.buf.getD [])), cap := c } text (resize c (s.buf.getD [])) := by
  rcases h with ⟨rfl, rfl⟩ | ⟨block, hblock⟩
  · exact ⟨rfl, hcapacity, by simp [resize, initial], rfl, rfl⟩
  · have hroom := hblock.room
    have hlength := hblock.length
    have hlen := hblock.len
    obtain ⟨htake, hnew⟩ := @take_resize block c (by omega) text.length (by omega)
    rw [hblock.buf, Option.getD_some]
    exact ⟨rfl, hcapacity, hnew, hlen, htake.trans hblock.front⟩

theorem Sound.put (h : Sound s text) (hlt : s.len + str.length < s.cap) :
    ∃ s' block, s.put str = .done s' ∧ Holds s' (text ++ str) block := by
  rcases h with ⟨rfl, rfl⟩ | ⟨block, hblock⟩
  · exact absurd hlt (Nat.not_lt_zero _)
  · exact ((put_cases hblock.toReady str).resolve_right fun hno => hno.1 hlt).2

theorem Sound.of_put (h : Sound s text) (hput : s.put str = .done s') :
    s.len + str.length < s.cap ∧ ∃ block, Holds s' (text ++ str) block := by
  rcases h with ⟨rfl, rfl⟩ | ⟨block, hblock⟩
  · exact nomatch hput
  · rcases put_cases hblock.toReady str with ⟨hlt, s₁, block', hput', hholds⟩ | ⟨-, hput'⟩
    · obtain rfl := Run.done.inj (hput.symm.trans hput')
      exact ⟨hlt, block', hholds⟩
    · exact nomatch hput.symm.trans hput'

/-- **An append that goes well** fits, and the buffer then holds the text. -/
theorem Sound.of_append (h : Sound s text) (happend : outputAppend fuel found str s = .done s') :
    Fits s (.append str found) ∧ ∃ block, Holds s' (text ++ str) block := by
  have hle := h.len.2
  rw [outputAppend] at happend
  split_ifs at happend with hgrow
  · obtain ⟨s₁, hs₁, hput⟩ := Run.bind_eq_done.mp happend
    rw [Output.grow] at hs₁
    obtain ⟨c, hc, hs₁⟩ := Run.bind_eq_done.mp hs₁
    obtain rfl := Run.done.inj hs₁
    obtain ⟨hcapacity, hneed, hroom⟩ := grown_of_done h.cap hgrow hc
    cases found with
    | false => exact nomatch hput
    | true =>
      rcases put_cases (ready_grown h hcapacity (hgrow.le.trans hneed)) str with
        ⟨hlt, s₂, block, hput', hholds⟩ | ⟨-, hput'⟩
      · obtain rfl := Run.done.inj (hput.symm.trans hput')
        have hmax := hcapacity.le
        dsimp only at hlt
        rw [size_of_lt (by omega)] at hgrow hroom
        obtain ⟨hsmall, hpow⟩ := hroom hlt
        exact ⟨⟨hgrow.ne', fun _ => ⟨hsmall, hpow, rfl⟩⟩, block, hholds⟩
      · exact nomatch hput.symm.trans hput'
  · obtain ⟨hlt, hholds⟩ := h.of_put happend
    exact ⟨⟨hlt.ne, fun hgt => absurd hgt (by omega)⟩, hholds⟩

/-- **An append that fits** goes well. -/
theorem Sound.append (h : Sound s text) (hfits : Fits s (.append str found)) :
    ∃ s', outputAppend 32 found str s = .done s' := by
  obtain ⟨hne, hgrows⟩ := hfits
  rw [outputAppend]
  by_cases hlt : s.cap < s.len + str.length
  · obtain ⟨hsmall, hpow, rfl⟩ := hgrows hlt
    obtain ⟨c, hc, hroom⟩ := exists_grown h.cap hlt hsmall hpow
    obtain ⟨hcapacity, hneed, -⟩ := grown_of_done h.cap hlt hc
    rw [size_of_lt (by omega), if_pos hlt, Output.grow, hc]
    obtain ⟨-, s', -, hput, -⟩ :=
      (put_cases (ready_grown h hcapacity (hlt.le.trans hneed)) str).resolve_right fun hno => hno.1 hroom
    exact ⟨s', hput⟩
  · have hmax : s.cap ≤ 2 ^ 31 := by
      rcases h.cap with hzero | hcapacity
      · omega
      · exact hcapacity.le
    rw [size_of_lt (by omega), if_neg hlt]
    obtain ⟨s', -, hput, -⟩ := h.put (show s.len + str.length < s.cap by omega)
    exact ⟨s', hput⟩

theorem Sound.reset (h : Sound s text) : ∃ s', outputReset s = .done s' ∧ Sound s' [] := by
  rcases h with ⟨rfl, rfl⟩ | ⟨block, hblock⟩
  · exact ⟨initial, rfl, .inl ⟨rfl, rfl⟩⟩
  · have hroom := hblock.room
    have hlength := hblock.length
    have hnul : 0 + [(0 : UInt8)].length ≤ block.length := by
      rw [List.length_singleton]
      omega
    have hcontent := @take_written [] block [0] rfl
    rw [outputReset, hblock.buf]
    dsimp only
    rw [Output.store, hblock.buf]
    dsimp only
    rw [if_pos hnul]
    refine ⟨_, rfl, .inr ⟨_, ⟨⟨rfl, hblock.capacity, ?_, rfl, rfl⟩, Nat.zero_lt_of_lt hroom, hcontent⟩⟩⟩
    rw [length_written hnul, hlength]

theorem Sound.describes (h : Sound s text) : Describes s text := by
  rcases h with ⟨rfl, rfl⟩ | ⟨block, hblock⟩
  · exact ⟨rfl, rfl⟩
  · refine ⟨hblock.len, ?_⟩
    rw [mpWasiGetOutput, hblock.buf]
    exact hblock.content

end Buffer

/-! ## Whole runs -/

section Runs

variable {s s' : Output} {text : Bytes} {op : Operation} {ops : List Operation} {fuel : ℕ}

theorem Sound.of_step (h : Sound s text) (hstep : step fuel s op = .done s') :
    Fits s op ∧ Sound s' (after text op) := by
  cases op with
  | reset =>
    obtain ⟨s₁, hs₁, hsound⟩ := h.reset
    obtain rfl := Run.done.inj (hs₁.symm.trans hstep)
    exact ⟨trivial, hsound⟩
  | append str found =>
    obtain ⟨hfits, hholds⟩ := h.of_append hstep
    exact ⟨hfits, .inr hholds⟩

theorem Sound.step (h : Sound s text) (hfits : Fits s op) : ∃ s', step 32 s op = .done s' := by
  cases op with
  | reset =>
    obtain ⟨s', hs', -⟩ := h.reset
    exact ⟨s', hs'⟩
  | append str found => exact h.append hfits

theorem step_unique {fuel' : ℕ} {s₁ s₂ : Output} (h₁ : step fuel s op = .done s₁) (h₂ : step fuel' s op = .done s₂) :
    s₁ = s₂ := by
  cases op with
  | reset => exact Run.done.inj (h₁.symm.trans h₂)
  | append str found =>
    rw [OutputBuffer.step, outputAppend] at h₁ h₂
    split_ifs at h₁ h₂ with hgrow
    · obtain ⟨t₁, hg₁, hput₁⟩ := Run.bind_eq_done.mp h₁
      obtain ⟨t₂, hg₂, hput₂⟩ := Run.bind_eq_done.mp h₂
      obtain ⟨c₁, hc₁, hd₁⟩ := Run.bind_eq_done.mp hg₁
      obtain ⟨c₂, hc₂, hd₂⟩ := Run.bind_eq_done.mp hg₂
      obtain rfl := growCapacity_unique hc₁ hc₂
      obtain rfl := Run.done.inj (hd₁.symm.trans hd₂)
      exact Run.done.inj (hput₁.symm.trans hput₂)
    · exact Run.done.inj (h₁.symm.trans h₂)

theorem next_eq (h : step fuel s op = .done s') (hfits : ∃ s₁, step 32 s op = .done s₁) : next s op = s' := by
  obtain ⟨s₁, hs₁⟩ := hfits
  rw [next, hs₁]
  exact step_unique hs₁ h

/-- **In a run that ends well** all appends fit, and the buffer holds the text. -/
theorem Sound.of_run (h : Sound s text) (hrun : ops.foldlM (OutputBuffer.step fuel) s = .done s') :
    Along next Fits s ops ∧ Sound s' (ops.foldl after text) := by
  induction ops generalizing s text with
  | nil =>
    obtain rfl := Run.done.inj hrun
    exact ⟨trivial, h⟩
  | cons op ops ih =>
    rw [List.foldlM_cons] at hrun
    obtain ⟨s₁, hstep, hrest⟩ := Run.bind_eq_done.mp hrun
    obtain ⟨hfits, hsound⟩ := h.of_step hstep
    obtain ⟨halong, htext⟩ := ih hsound hrest
    refine ⟨⟨hfits, ?_⟩, htext⟩
    rwa [next_eq hstep (h.step hfits)]

/-- **A run whose appends fit** ends well. -/
theorem Sound.run (h : Sound s text) (halong : Along next Fits s ops) :
    ∃ s', ops.foldlM (OutputBuffer.step 32) s = .done s' := by
  induction ops generalizing s text with
  | nil => exact ⟨s, rfl⟩
  | cons op ops ih =>
    obtain ⟨s₁, hstep⟩ := h.step halong.1
    have hnext : next s op = s₁ := next_eq hstep ⟨s₁, hstep⟩
    obtain ⟨s', hrun⟩ := ih (h.of_step hstep).2 (hnext ▸ halong.2)
    refine ⟨s', ?_⟩
    rw [List.foldlM_cons, hstep]
    exact hrun

/-- **Output stays in bounds exactly if every append fits**: then nothing is written outside the block, the loops end,
and what is read is what has been appended since the last reset, with a NUL behind it. -/
theorem output_in_bounds_iff (ops : List Operation) :
    (∃ fuel s, run fuel ops = .done s ∧ Describes s (captured ops)) ↔ Along next Fits initial ops := by
  have hinitial : Sound initial [] := .inl ⟨rfl, rfl⟩
  constructor
  · rintro ⟨fuel, s, hrun, -⟩
    exact (hinitial.of_run hrun).1
  · intro halong
    obtain ⟨s, hrun⟩ := hinitial.run halong
    exact ⟨32, s, hrun, (hinitial.of_run hrun).2.describes⟩

theorem not_fits_of_length {str : Bytes} (h : str.length = 4096) : ¬Fits initial (.append str true) := by
  rintro ⟨-, hgrows⟩
  have hlen : initial.len + str.length = 4096 * 2 ^ 0 := by rw [h]; rfl
  have hlt : initial.cap < initial.len + str.length := by rw [hlen]; decide
  exact (hgrows hlt).2.1 ⟨0, hlen⟩

/-- The first output has 4096 bytes: the NUL is written behind the block. -/
theorem output_out_of_bounds : ¬∀ ops, ∃ fuel s, run fuel ops = .done s ∧ Describes s (captured ops) := by
  intro h
  obtain ⟨fuel, s, hrun, -⟩ := h [.append (List.replicate 4096 0x61) true]
  have hinitial : Sound initial [] := .inl ⟨rfl, rfl⟩
  have hfits := (hinitial.of_run hrun).1.1
  exact not_fits_of_length List.length_replicate hfits

end Runs

end VelocityMcp.OutputBuffer
