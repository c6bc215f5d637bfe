import VelocityMcp.Lib.Loop
import VelocityMcp.Wasm.WasiFiles

/-!
# Wasm.Iovecs — the loops over what a guest lists in its memory (`wasm_runtime/wasi.rs`)

A turn is `none` where the code panics: at an access outside the memory, or where a count leaves its 32 bits (a build
without overflow checks goes on there, with a count that has wrapped).  Offsets are natural numbers: the first offset
of a loop that needs more than 64 bits comes after one that lies outside the memory.
-/

namespace VelocityMcp.Wasm

open Lib

/-! ## Accesses -/

namespace GuestMemory

/-- The range lies in the memory. -/
def Within (m : GuestMemory) (offset len : ℕ) : Prop := offset + len ≤ m.size

def bytesAt (m : GuestMemory) (offset len : ℕ) : Bytes := (List.range len).map fun i => m.bytes (offset + i)

/-- `MemoryView::write`, unwrapped. -/
def put (m : GuestMemory) (offset : ℕ) (data : Bytes) : Option GuestMemory := (m.write offset data).toOption

/-- A write without the check. -/
def fill (m : GuestMemory) (offset : ℕ) (data : Bytes) : GuestMemory :=
  { m with bytes := runStores m.bytes (storesAt offset data) }

def putAll (m : GuestMemory) (writes : List (ℕ × Bytes)) : Option GuestMemory :=
  writes.foldlM (fun m w => m.put w.1 w.2) m

def fillAll (m : GuestMemory) (writes : List (ℕ × Bytes)) : GuestMemory :=
  writes.foldl (fun m w => m.fill w.1 w.2) m

variable {m : GuestMemory} {offset len : ℕ} {data : Bytes} {writes : List (ℕ × Bytes)}

theorem read_of_within (h : m.Within offset len) : m.read offset len = some (m.bytesAt offset len) :=
  if_neg (not_lt.mpr h)

theorem read_of_not_within (h : ¬m.Within offset len) : m.read offset len = none := if_pos (not_le.mp h)

theorem put_of_within (h : m.Within offset data.length) : m.put offset data = some (m.fill offset data) := by
  rw [put, GuestMemory.write_eq_ok.mpr ⟨h, rfl⟩]
  rfl

theorem put_of_not_within (h : ¬m.Within offset data.length) : m.put offset data = none := by
  rw [put, write, if_pos (not_le.mp h)]
  rfl

theorem putAll_of_within (h : ∀ w ∈ writes, m.Within w.1 w.2.length) : m.putAll writes = some (m.fillAll writes) := by
  induction writes generalizing m with
  | nil => rfl
  | cons w writes ih =>
    obtain ⟨hw, h⟩ := List.forall_mem_cons.mp h
    rw [putAll, List.foldlM_cons, put_of_within hw, Option.bind_eq_bind, Option.bind_some]
    exact ih h

theorem putAll_of_not_within (h : ¬∀ w ∈ writes, m.Within w.1 w.2.length) : m.putAll writes = none := by
  induction writes generalizing m with
  | nil => exact absurd (fun w hw => absurd hw List.not_mem_nil) h
  | cons w writes ih =>
    rw [putAll, List.foldlM_cons, Option.bind_eq_bind]
    by_cases hw : m.Within w.1 w.2.length
    · rw [put_of_within hw, Option.bind_some]
      exact ih fun hrest => h (List.forall_mem_cons.mpr ⟨hw, hrest⟩)
    · rw [put_of_not_within hw, Option.bind_none]

@[simp] theorem size_fillAll : (m.fillAll writes).size = m.size := by
  induction writes generalizing m with
  | nil => rfl
  | cons w writes ih => exact ih

@[simp] theorem length_bytesAt : (m.bytesAt offset len).length = len := by simp [bytesAt]

/-- Writes beside a range leave it as it is. -/
theorem bytesAt_fillAll (h : ∀ w ∈ writes, w.1 + w.2.length ≤ offset ∨ offset + len ≤ w.1) :
    (m.fillAll writes).bytesAt offset len = m.bytesAt offset len := by
  induction writes generalizing m with
  | nil => rfl
  | cons w writes ih =>
    obtain ⟨hw, h⟩ := List.forall_mem_cons.mp h
    refine (ih h).trans (List.map_congr_left fun i hi => runStores_of_notMem fun p hp heq => ?_)
    have hi := List.mem_range.mp hi
    have hp := mem_storesAt hp
    omega

theorem Within.mono {offset' len' : ℕ} (h : m.Within offset len) (hle : offset' + len' ≤ offset + len) :
    m.Within offset' len' := le_trans hle h

end GuestMemory

/-- `+=` on a `u32`. -/
def addU32 (total n : ℕ) : Option ℕ := if total + n < 2 ^ 32 then some (total + n) else none

/-- A buffer that the guest lists. -/
structure Iovec where
  ptr : ℕ
  len : ℕ

namespace GuestMemory

variable (m : GuestMemory) (iovsPtr i : ℕ)

def readIovec : Option Iovec := do
  let ptrBytes ← m.read (iovsPtr + i * 8) 4
  let lenBytes ← m.read (iovsPtr + i * 8 + 4) 4
  some ⟨leNat ptrBytes, leNat lenBytes⟩

def iovecAt : Iovec := ⟨leNat (m.bytesAt (iovsPtr + i * 8) 4), leNat (m.bytesAt (iovsPtr + i * 8 + 4) 4)⟩

variable {m iovsPtr i}

theorem readIovec_of_within (h : m.Within (iovsPtr + i * 8) 8) :
    m.readIovec iovsPtr i = some (m.iovecAt iovsPtr i) := by
  rw [readIovec, read_of_within (h.mono (by omega)), read_of_within (h.mono (by omega))]
  rfl

theorem readIovec_of_not_within (h : ¬m.Within (iovsPtr + i * 8) 8) : m.readIovec iovsPtr i = none := by
  have hlen : ¬m.Within (iovsPtr + i * 8 + 4) 4 := fun hlen => h (le_trans (by omega) hlen)
  rw [readIovec, read_of_not_within hlen]
  cases m.read (iovsPtr + i * 8) 4 <;> rfl

end GuestMemory

/-! ## From the guest -/

section Gather

variable (m : GuestMemory) (iovsPtr : ℕ) (sink : ℕ → Bytes → Option (Turn Int32 ℕ)) (i total : ℕ)

/-- A turn of the loops of `fd_write` and `sock_send`; `sink` is what becomes of the bytes, with the number that are
counted. -/
def gatherTurn : Option (Turn Int32 ℕ) := do
  let iov ← m.readIovec iovsPtr i
  if 0 < iov.len then do
    let data ← m.read iov.ptr iov.len
    match ← sink i data with
    | .next n => do
      let total ← addU32 total n
      some (.next total)
    | .leave _ => some (.leave total)
    | .ret e _ => some (.ret e total)
  else some (.next total)

def gatheredBytes : Bytes := m.bytesAt (m.iovecAt iovsPtr i).ptr (m.iovecAt iovsPtr i).len

/-- The turn, if it goes right. -/
def gathered : Turn Int32 ℕ :=
  if 0 < (m.iovecAt iovsPtr i).len then
    match sink i (gatheredBytes m iovsPtr i) with
    | some (.next n) => .next (total + n)
    | some (.ret e _) => .ret e total
    | _ => .leave total
  else .next total

/-- The entry lies in the memory, the buffer does, the bytes are taken, and the count stays in its 32 bits. -/
structure GatherOk : Prop where
  entry : m.Within (iovsPtr + i * 8) 8
  buffer : 0 < (m.iovecAt iovsPtr i).len → m.Within (m.iovecAt iovsPtr i).ptr (m.iovecAt iovsPtr i).len
  taken : 0 < (m.iovecAt iovsPtr i).len → sink i (gatheredBytes m iovsPtr i) ≠ none
  counted : ∀ n, 0 < (m.iovecAt iovsPtr i).len → sink i (gatheredBytes m iovsPtr i) = some (.next n) →
    total + n < 2 ^ 32

variable {m iovsPtr sink i total}

theorem gatherTurn_of_ok (h : GatherOk m iovsPtr sink i total) :
    gatherTurn m iovsPtr sink i total = some (gathered m iovsPtr sink i total) := by
  rw [gatherTurn, GuestMemory.readIovec_of_within h.entry, Option.bind_eq_bind, Option.bind_some, gathered]
  by_cases hlen : 0 < (m.iovecAt iovsPtr i).len
  · rw [if_pos hlen, if_pos hlen, GuestMemory.read_of_within (h.buffer hlen), Option.bind_eq_bind, Option.bind_some]
    have htaken := h.taken hlen
    have hcounted := fun n => h.counted n hlen
    unfold gatheredBytes at htaken hcounted ⊢
    cases hsink : sink i (m.bytesAt (m.iovecAt iovsPtr i).ptr (m.iovecAt iovsPtr i).len) with
    | none => exact absurd hsink htaken
    | some t =>
      cases t with
      | next n => simp only [addU32, if_pos (hcounted n hsink), Option.bind_eq_bind, Option.bind_some]
      | leave n => rfl
      | ret e n => rfl
  · rw [if_neg hlen, if_neg hlen]

theorem gatherTurn_of_not_ok (h : ¬GatherOk m iovsPtr sink i total) : gatherTurn m iovsPtr sink i total = none := by
  by_contra hsome
  refine h ?_
  rw [gatherTurn] at hsome
  have hentry : m.Within (iovsPtr + i * 8) 8 := by
    by_contra hentry
    rw [GuestMemory.readIovec_of_not_within hentry] at hsome
    exact hsome rfl
  rw [GuestMemory.readIovec_of_within hentry, Option.bind_eq_bind, Option.bind_some] at hsome
  by_cases hlen : 0 < (m.iovecAt iovsPtr i).len
  · rw [if_pos hlen] at hsome
    have hbuffer : m.Within (m.iovecAt iovsPtr i).ptr (m.iovecAt iovsPtr i).len := by
      by_contra hbuffer
      rw [GuestMemory.read_of_not_within hbuffer] at hsome
      exact hsome rfl
    rw [GuestMemory.read_of_within hbuffer, Option.bind_eq_bind, Option.bind_some] at hsome
    refine ⟨hentry, fun _ => hbuffer, fun _ hsink => ?_, fun n _ hsink => ?_⟩
    · unfold gatheredBytes at hsink
      rw [hsink] at hsome
      exact hsome rfl
    · unfold gatheredBytes at hsink
      rw [hsink, Option.bind_eq_bind, Option.bind_some] at hsome
      by_contra hover
      simp only [addU32, if_neg hover] at hsome
      exact hsome rfl
  · exact ⟨hentry, fun h => absurd h hlen, fun h => absurd h hlen, fun _ h => absurd h hlen⟩

theorem checks_gatherTurn (m : GuestMemory) (iovsPtr : ℕ) (sink : ℕ → Bytes → Option (Turn Int32 ℕ)) :
    Checks (gatherTurn m iovsPtr sink) (gathered m iovsPtr sink) (GatherOk m iovsPtr sink) :=
  ⟨fun _ _ => gatherTurn_of_ok, fun _ _ => gatherTurn_of_not_ok⟩

end Gather

/-! ## To the guest -/

/-- What a read from the host gives for a buffer. -/
inductive Got where
  /-- bytes for the guest, and what is left of standard input -/
  | bytes (data stdin : Bytes) (more : Bool)
  | nothing
  | leave
  | ret (e : Int32)

/-- What the loops of `fd_read` and `sock_recv` change. -/
structure Receiving where
  memory : GuestMemory
  stdin : Bytes
  total : ℕ

section Scatter

variable (iovsPtr : ℕ) (source : ℕ → ℕ → Bytes → Got) (i : ℕ) (s : Receiving)

/-- A turn of these loops; `source` is where the bytes come from. -/
def scatterTurn : Option (Turn Int32 Receiving) := do
  let iov ← s.memory.readIovec iovsPtr i
  if 0 < iov.len then
    match source i iov.len s.stdin with
    | .bytes data stdin more => do
      let memory ← s.memory.put iov.ptr data
      let total ← addU32 s.total data.length
      some (if more then .next { memory, stdin, total } else .leave { memory, stdin, total })
    | .nothing => some (.next s)
    | .leave => some (.leave s)
    | .ret e => some (.ret e s)
  else some (.next s)

/-- The turn, if it goes right. -/
def scattered : Turn Int32 Receiving :=
  let iov := s.memory.iovecAt iovsPtr i
  if 0 < iov.len then
    match source i iov.len s.stdin with
    | .bytes data stdin more =>
      let s' : Receiving := { memory := s.memory.fill iov.ptr data, stdin, total := s.total + data.length }
      if more then .next s' else .leave s'
    | .nothing => .next s
    | .leave => .leave s
    | .ret e => .ret e s
  else .next s

/-- The entry lies in the memory, what is read fits there, and the count stays in its 32 bits. -/
structure ScatterOk : Prop where
  entry : s.memory.Within (iovsPtr + i * 8) 8
  buffer : ∀ data stdin more, 0 < (s.memory.iovecAt iovsPtr i).len →
    source i (s.memory.iovecAt iovsPtr i).len s.stdin = .bytes data stdin more →
      s.memory.Within (s.memory.iovecAt iovsPtr i).ptr data.length
  counted : ∀ data stdin more, 0 < (s.memory.iovecAt iovsPtr i).len →
    source i (s.memory.iovecAt iovsPtr i).len s.stdin = .bytes data stdin more → s.total + data.length < 2 ^ 32

variable {iovsPtr source i s}

theorem scatterTurn_of_ok (h : ScatterOk iovsPtr source i s) :
    scatterTurn iovsPtr source i s = some (scattered iovsPtr source i s) := by
  rw [scatterTurn, GuestMemory.readIovec_of_within h.entry, Option.bind_eq_bind, Option.bind_some, scattered]
  by_cases hlen : 0 < (s.memory.iovecAt iovsPtr i).len
  · rw [if_pos hlen]
    simp only [if_pos hlen]
    cases hgot : source i (s.memory.iovecAt iovsPtr i).len s.stdin with
    | bytes data stdin more =>
      simp only [GuestMemory.put_of_within (h.buffer data stdin more hlen hgot), addU32,
        if_pos (h.counted data stdin more hlen hgot), Option.bind_eq_bind, Option.bind_some]
    | nothing => rfl
    | leave => rfl
    | ret e => rfl
  · rw [if_neg hlen]
    simp only [if_neg hlen]

theorem scatterTurn_of_not_ok (h : ¬ScatterOk iovsPtr source i s) : scatterTurn iovsPtr source i s = none := by
  by_contra hsome
  refine h ?_
  rw [scatterTurn] at hsome
  have hentry : s.memory.Within (iovsPtr + i * 8) 8 := by
    by_contra hentry
    rw [GuestMemory.readIovec_of_not_within hentry] at hsome
    exact hsome rfl
  rw [GuestMemory.readIovec_of_within hentry, Option.bind_eq_bind, Option.bind_some] at hsome
  have hfits : ∀ data stdin more, 0 < (s.memory.iovecAt iovsPtr i).len →
      source i (s.memory.iovecAt iovsPtr i).len s.stdin = .bytes data stdin more →
        s.memory.Within (s.memory.iovecAt iovsPtr i).ptr data.length ∧ s.total + data.length < 2 ^ 32 := by
    intro data stdin more hlen hgot
    rw [if_pos hlen, hgot] at hsome
    have hbuffer : s.memory.Within (s.memory.iovecAt iovsPtr i).ptr data.length := by
      by_contra hbuffer
      simp only [GuestMemory.put_of_not_within hbuffer] at hsome
      exact hsome rfl
    refine ⟨hbuffer, ?_⟩
    by_contra hover
    simp only [GuestMemory.put_of_within hbuffer, addU32, if_neg hover] at hsome
    exact hsome rfl
  exact ⟨hentry, fun data stdin more hlen hgot => (hfits data stdin more hlen hgot).1,
    fun data stdin more hlen hgot => (hfits data stdin more hlen hgot).2⟩

theorem checks_scatterTurn (iovsPtr : ℕ) (source : ℕ → ℕ → Bytes → Got) :
    Checks (scatterTurn iovsPtr source) (scattered iovsPtr source) (ScatterOk iovsPtr source) :=
  ⟨fun _ _ => scatterTurn_of_ok, fun _ _ => scatterTurn_of_not_ok⟩

theorem size_scattered : (scattered iovsPtr source i s).state.memory.size = s.memory.size := by
  unfold scattered
  dsimp only
  split
  · split
    · split <;> rfl
    · rfl
    · rfl
    · rfl
  · rfl

end Scatter

/-! ## Subscriptions -/

/-- What the loop of `poll_oneoff` changes. -/
structure Polling where
  memory : GuestMemory
  eventCount : ℕ

def eventWrites (base : ℕ) (userdata : Bytes) (tag : UInt8) (nbytes : ℕ) : List (ℕ × Bytes) :=
  [(base, userdata), (base + 8, leBytes 2 0), (base + 10, [tag]), (base + 16, leBytes 8 nbytes),
    (base + 24, leBytes 2 0)]

section Poll

variable (inPtr outPtr : ℕ) (isReady : Int32 → Bool) (i : ℕ) (s : Polling)

/-- A turn of this loop; a timeout is slept through between the reads and the writes. -/
def pollTurn : Option (Turn Int32 Polling) := do
  let userdata ← s.memory.read (inPtr + i * 48) 8
  let tagBytes ← s.memory.read (inPtr + i * 48 + 8) 1
  let tag := tagBytes.headD 0
  let eventBase := outPtr + s.eventCount * 32
  if tag = 0 then do
    let _timeout ← s.memory.read (inPtr + i * 48 + 24) 8
    let _flags ← s.memory.read (inPtr + i * 48 + 40) 2
    let memory ← s.memory.putAll (eventWrites eventBase userdata 0 0)
    let eventCount ← addU32 s.eventCount 1
    some (.next { memory, eventCount })
  else if tag = 1 ∨ tag = 2 then do
    let fdBytes ← s.memory.read (inPtr + i * 48 + 16) 4
    let nbytes := if isReady (Int32.ofNat (leNat fdBytes)) then 1 else 0
    let memory ← s.memory.putAll (eventWrites eventBase userdata tag nbytes)
    let eventCount ← addU32 s.eventCount 1
    some (.next { memory, eventCount })
  else some (.next s)

def tagAt : UInt8 := (s.memory.bytesAt (inPtr + i * 48 + 8) 1).headD 0

/-- The turn, if it goes right. -/
def polled : Turn Int32 Polling :=
  let userdata := s.memory.bytesAt (inPtr + i * 48) 8
  let eventBase := outPtr + s.eventCount * 32
  if tagAt inPtr i s = 0 then
    .next { memory := s.memory.fillAll (eventWrites eventBase userdata 0 0), eventCount := s.eventCount + 1 }
  else if tagAt inPtr i s = 1 ∨ tagAt inPtr i s = 2 then
    let nbytes := if isReady (Int32.ofNat (leNat (s.memory.bytesAt (inPtr + i * 48 + 16) 4))) then 1 else 0
    .next { memory := s.memory.fillAll (eventWrites eventBase userdata (tagAt inPtr i s) nbytes)
            eventCount := s.eventCount + 1 }
  else .next s

/-- What is read of the subscription lies in the memory, and so does its event. -/
structure PollOk : Prop where
  head : s.memory.Within (inPtr + i * 48) 9
  clock : tagAt inPtr i s = 0 → s.memory.Within (inPtr + i * 48) 42
  fd : tagAt inPtr i s = 1 ∨ tagAt inPtr i s = 2 → s.memory.Within (inPtr + i * 48) 20
  event : tagAt inPtr i s = 0 ∨ tagAt inPtr i s = 1 ∨ tagAt inPtr i s = 2 →
    s.memory.Within (outPtr + s.eventCount * 32) 26

variable {inPtr outPtr isReady i s}

theorem eventWrites_within {m : GuestMemory} {base : ℕ} {userdata : Bytes} (hlen : userdata.length = 8) (tag : UInt8)
    (nbytes : ℕ) : (∀ w ∈ eventWrites base userdata tag nbytes, m.Within w.1 w.2.length) ↔ m.Within base 26 := by
  simp only [eventWrites, List.forall_mem_cons, GuestMemory.Within, hlen, length_leBytes, List.length_singleton]
  constructor
  · rintro ⟨-, -, -, -, hlast, -⟩
    omega
  · intro h
    exact ⟨by omega, by omega, by omega, by omega, by omega, fun w hw => absurd hw List.not_mem_nil⟩

theorem addU32_of_within {m : GuestMemory} {count : ℕ} (h : m.Within (outPtr + count * 32) 26) :
    addU32 count 1 = some (count + 1) := by
  have hsize := m.size_le
  unfold GuestMemory.Within at h
  exact if_pos (by omega)

theorem pollTurn_of_ok (h : PollOk inPtr outPtr i s) :
    pollTurn inPtr outPtr isReady i s = some (polled inPtr outPtr isReady i s) := by
  have hin : ∀ {n : ℕ} (k len : ℕ), s.memory.Within (inPtr + i * 48) n → k + len ≤ n →
      s.memory.read (inPtr + i * 48 + k) len = some (s.memory.bytesAt (inPtr + i * 48 + k) len) :=
    fun k len hn hk => GuestMemory.read_of_within (hn.mono (by omega))
  have hevent : ∀ {tag : UInt8} {nbytes : ℕ}, tagAt inPtr i s = 0 ∨ tagAt inPtr i s = 1 ∨ tagAt inPtr i s = 2 →
      s.memory.putAll (eventWrites (outPtr + s.eventCount * 32) (s.memory.bytesAt (inPtr + i * 48) 8) tag nbytes) =
        some (s.memory.fillAll (eventWrites (outPtr + s.eventCount * 32) (s.memory.bytesAt (inPtr + i * 48) 8) tag
          nbytes)) :=
    fun htag => GuestMemory.putAll_of_within
      ((eventWrites_within GuestMemory.length_bytesAt _ _).mpr (h.event htag))
  have htagAt : (s.memory.bytesAt (inPtr + i * 48 + 8) 1).headD 0 = tagAt inPtr i s := rfl
  have huserdata := hin 0 8 h.head (by omega)
  rw [Nat.add_zero] at huserdata
  rw [pollTurn, huserdata, Option.bind_eq_bind, Option.bind_some, hin 8 1 h.head (by omega), Option.bind_some, polled]
  simp only [htagAt]
  by_cases hclock : tagAt inPtr i s = 0
  · simp only [if_pos hclock, hin 24 8 (h.clock hclock) (by omega), hin 40 2 (h.clock hclock) (by omega),
      hevent (Or.inl hclock), addU32_of_within (h.event (Or.inl hclock)), Option.bind_eq_bind, Option.bind_some]
  · by_cases hfd : tagAt inPtr i s = 1 ∨ tagAt inPtr i s = 2
    · simp only [if_neg hclock, if_pos hfd, hin 16 4 (h.fd hfd) (by omega), hevent (Or.inr hfd),
        addU32_of_within (h.event (Or.inr hfd)), Option.bind_eq_bind, Option.bind_some]
    · simp only [if_neg hclock, if_neg hfd]

theorem pollTurn_of_not_ok (h : ¬PollOk inPtr outPtr i s) : pollTurn inPtr outPtr isReady i s = none := by
  by_contra hsome
  refine h ?_
  obtain ⟨t, ht⟩ := Option.ne_none_iff_exists'.mp hsome
  rw [pollTurn] at ht
  have hread : ∀ {k len : ℕ} {b : Bytes}, s.memory.read k len = some b → s.memory.Within k len ∧
      b = s.memory.bytesAt k len := by
    intro k len b hb
    by_cases hin : s.memory.Within k len
    · rw [GuestMemory.read_of_within hin] at hb
      exact ⟨hin, (Option.some.inj hb).symm⟩
    · rw [GuestMemory.read_of_not_within hin] at hb
      cases hb
  have hevent : ∀ {tag : UInt8} {nbytes : ℕ} {m' : GuestMemory},
      s.memory.putAll (eventWrites (outPtr + s.eventCount * 32) (s.memory.bytesAt (inPtr + i * 48) 8) tag nbytes) =
        some m' → s.memory.Within (outPtr + s.eventCount * 32) 26 := by
    intro tag nbytes m' hm'
    by_contra hout
    rw [GuestMemory.putAll_of_not_within
      fun h => hout ((eventWrites_within GuestMemory.length_bytesAt tag nbytes).mp h)] at hm'
    cases hm'
  obtain ⟨userdata, huserdata, ht⟩ := Option.bind_eq_some_iff.mp ht
  obtain ⟨-, rfl⟩ := hread huserdata
  obtain ⟨tagBytes, htagBytes, ht⟩ := Option.bind_eq_some_iff.mp ht
  obtain ⟨htag, rfl⟩ := hread htagBytes
  have htagAt : (s.memory.bytesAt (inPtr + i * 48 + 8) 1).headD 0 = tagAt inPtr i s := rfl
  simp only [htagAt] at ht
  have hhead : s.memory.Within (inPtr + i * 48) 9 := htag.mono (by omega)
  by_cases hclock : tagAt inPtr i s = 0
  · rw [if_pos hclock] at ht
    obtain ⟨timeout, -, ht⟩ := Option.bind_eq_some_iff.mp ht
    obtain ⟨flags, hflags, ht⟩ := Option.bind_eq_some_iff.mp ht
    obtain ⟨memory, hmemory, -⟩ := Option.bind_eq_some_iff.mp ht
    refine ⟨hhead, fun _ => (hread hflags).1.mono (by omega), fun hfd => ?_, fun _ => hevent hmemory⟩
    rw [hclock] at hfd
    exact absurd hfd (by decide)
  · rw [if_neg hclock] at ht
    by_cases hfd : tagAt inPtr i s = 1 ∨ tagAt inPtr i s = 2
    · rw [if_pos hfd] at ht
      obtain ⟨fdBytes, hfdBytes, ht⟩ := Option.bind_eq_some_iff.mp ht
      obtain ⟨memory, hmemory, -⟩ := Option.bind_eq_some_iff.mp ht
      exact ⟨hhead, fun h => absurd h hclock, fun _ => (hread hfdBytes).1.mono (by omega), fun _ => hevent hmemory⟩
    · exact ⟨hhead, fun h => absurd h hclock, fun h => absurd h hfd, fun h => absurd h (not_or.mpr ⟨hclock, hfd⟩)⟩

theorem checks_pollTurn (inPtr outPtr : ℕ) (isReady : Int32 → Bool) :
    Checks (pollTurn inPtr outPtr isReady) (polled inPtr outPtr isReady) (PollOk inPtr outPtr) :=
  ⟨fun _ _ => pollTurn_of_ok, fun _ _ => pollTurn_of_not_ok⟩

theorem size_polled : (polled inPtr outPtr isReady i s).state.memory.size = s.memory.size := by
  unfold polled
  dsimp only
  split
  · exact GuestMemory.size_fillAll
  · split
    · exact GuestMemory.size_fillAll
    · rfl

end Poll

end VelocityMcp.Wasm
