import VelocityMcp.Wasm.Imports

/-!
# Wasm.Transfers — what the loops over buffers move (`wasm_runtime/wasi.rs`)

A loop takes each buffer as it finds it listed when it comes to it; `take_buffersAt`: it finds those of the guest's
list at the call if no buffer lies over entries that come later (`Apart`).
-/

namespace VelocityMcp.Wasm

open Lib

/-! ## From the guest -/

section Gather

variable (mem : GuestMemory) (iovsPtr : ℕ) (write : ℕ → (data : Bytes) → Except IoError { n : ℕ // n ≤ data.length })

/-- What the host takes in the turns from `i` on. -/
def sent : ℕ → ℕ → Bytes
  | 0, _ => []
  | n + 1, i =>
    if 0 < (mem.iovecAt iovsPtr i).len then
      match write i (gatheredBytes mem iovsPtr i) with
      | .ok k => (gatheredBytes mem iovsPtr i).take k ++ sent n (i + 1)
      | .error _ => []
    else sent n (i + 1)

/-- What the buffers hold. -/
def contents : ℕ → ℕ → Bytes
  | 0, _ => []
  | n + 1, i => gatheredBytes mem iovsPtr i ++ contents n (i + 1)

/-- Once the host takes a part of a buffer only, it takes nothing more, or by coincidence the bytes that were left
out. -/
def Seamless : ℕ → ℕ → Prop
  | 0, _ => True
  | n + 1, i =>
    if 0 < (mem.iovecAt iovsPtr i).len then
      match write i (gatheredBytes mem iovsPtr i) with
      | .ok k =>
        if k = (gatheredBytes mem iovsPtr i).length then Seamless n (i + 1)
        else sent mem iovsPtr write n (i + 1) <+: (gatheredBytes mem iovsPtr i).drop k ++ contents mem iovsPtr n (i + 1)
      | .error _ => True
    else Seamless n (i + 1)

/-- The sink hands the bytes to the host, and stops where the host fails. -/
def Relays (sink : ℕ → Bytes → Option (Turn Int32 ℕ)) : Prop :=
  ∀ i data, match write i data with
    | .ok k => sink i data = some (.next k)
    | .error _ => sink i data = some (.leave 0) ∨ ∃ e, e ≠ 0 ∧ sink i data = some (.ret e 0)

variable {mem iovsPtr write}

/-- **One contiguous stream** leaves the guest exactly if there is no such seam. -/
theorem sent_prefix_iff {n i : ℕ} :
    sent mem iovsPtr write n i <+: contents mem iovsPtr n i ↔ Seamless mem iovsPtr write n i := by
  induction n generalizing i with
  | zero => exact iff_of_true (List.prefix_refl _) trivial
  | succ n ih =>
    unfold sent contents Seamless
    split_ifs with hlen
    · cases hwrite : write i (gatheredBytes mem iovsPtr i) with
      | error e => exact iff_of_true (List.nil_prefix) trivial
      | ok k =>
        dsimp only
        split_ifs with hk
        · rw [hk, List.take_length, List.prefix_append_right_inj]
          exact ih
        · have hcut : gatheredBytes mem iovsPtr i ++ contents mem iovsPtr n (i + 1) =
              (gatheredBytes mem iovsPtr i).take k ++
                ((gatheredBytes mem iovsPtr i).drop k ++ contents mem iovsPtr n (i + 1)) := by
            rw [← List.append_assoc, List.take_append_drop]
          rw [hcut, List.prefix_append_right_inj]
    · have hempty : gatheredBytes mem iovsPtr i = [] := by
        apply List.eq_nil_of_length_eq_zero
        rw [gatheredBytes, GuestMemory.length_bytesAt]
        omega
      rw [hempty, List.nil_append]
      exact ih

variable {sink : ℕ → Bytes → Option (Turn Int32 ℕ)}

theorem gathered_of_empty {i total : ℕ} (hlen : ¬ 0 < (mem.iovecAt iovsPtr i).len) :
    gathered mem iovsPtr sink i total = .next total := if_neg hlen

theorem gathered_of_taken (hsink : Relays write sink) {i total : ℕ} (hlen : 0 < (mem.iovecAt iovsPtr i).len)
    {k : { n : ℕ // n ≤ (gatheredBytes mem iovsPtr i).length }}
    (hwrite : write i (gatheredBytes mem iovsPtr i) = .ok k) :
    gathered mem iovsPtr sink i total = .next (total + k) := by
  have hdata := hsink i (gatheredBytes mem iovsPtr i)
  simp only [hwrite] at hdata
  rw [gathered, if_pos hlen, hdata]

theorem gathered_of_failed (hsink : Relays write sink) {i total : ℕ} (hlen : 0 < (mem.iovecAt iovsPtr i).len)
    {e : IoError} (hwrite : write i (gatheredBytes mem iovsPtr i) = .error e) :
    gathered mem iovsPtr sink i total = .leave total ∨
      ∃ e, e ≠ 0 ∧ gathered mem iovsPtr sink i total = .ret e total := by
  have hdata := hsink i (gatheredBytes mem iovsPtr i)
  simp only [hwrite] at hdata
  rw [gathered, if_pos hlen]
  rcases hdata with hdata | ⟨r, hr, hdata⟩
  · exact Or.inl (by rw [hdata])
  · exact Or.inr ⟨r, hr, by rw [hdata]⟩

/-- The count is that of the bytes sent, and an error is none of the numbers that mean success. -/
theorem ending_gathered (hsink : Relays write sink) (n i total : ℕ) :
    let last := total + (sent mem iovsPtr write n i).length
    ending (gathered mem iovsPtr sink) n i total = .next last ∨
      ending (gathered mem iovsPtr sink) n i total = .leave last ∨
        ∃ e, e ≠ 0 ∧ ending (gathered mem iovsPtr sink) n i total = .ret e last := by
  induction n generalizing i total with
  | zero => exact Or.inl rfl
  | succ n ih =>
    rw [ending, sent]
    by_cases hlen : 0 < (mem.iovecAt iovsPtr i).len
    · rw [if_pos hlen]
      cases hwrite : write i (gatheredBytes mem iovsPtr i) with
      | ok k =>
        have hk : ((gatheredBytes mem iovsPtr i).take k.1).length = k.1 := List.length_take_of_le k.2
        rw [gathered_of_taken hsink hlen hwrite, List.length_append, hk, ← Nat.add_assoc]
        exact ih (i + 1) (total + k)
      | error e =>
        rcases @gathered_of_failed _ _ _ _ hsink i total hlen _ hwrite with hturn | ⟨r, hr, hturn⟩
        · rw [hturn]
          exact Or.inr (Or.inl rfl)
        · rw [hturn]
          exact Or.inr (Or.inr ⟨r, hr, rfl⟩)
    · rw [if_neg hlen, gathered_of_empty hlen]
      exact ih (i + 1) total

theorem length_sent_lt (hsink : Relays write sink) {n i total : ℕ} (htotal : total < 2 ^ 32)
    (h : AllTurns (gathered mem iovsPtr sink) (GatherOk mem iovsPtr sink) n i total) :
    total + (sent mem iovsPtr write n i).length < 2 ^ 32 := by
  induction n generalizing i total with
  | zero => exact htotal
  | succ n ih =>
    obtain ⟨hok, hrest⟩ := allTurns_succ.mp h
    rw [sent]
    by_cases hlen : 0 < (mem.iovecAt iovsPtr i).len
    · rw [if_pos hlen]
      cases hwrite : write i (gatheredBytes mem iovsPtr i) with
      | ok k =>
        have hdata := hsink i (gatheredBytes mem iovsPtr i)
        simp only [hwrite] at hdata
        have hk : ((gatheredBytes mem iovsPtr i).take k.1).length = k.1 := List.length_take_of_le k.2
        rw [List.length_append, hk, ← Nat.add_assoc]
        exact ih (hok.counted k hlen hdata) (hrest _ (gathered_of_taken hsink hlen hwrite))
      | error e => exact htotal
    · rw [if_neg hlen]
      exact ih htotal (hrest _ (gathered_of_empty hlen))

end Gather

/-! ## To the guest -/

/-- The writes by which a stream fills buffers, from the first on. -/
def spread : List Iovec → Bytes → List (ℕ × Bytes)
  | [], _ => []
  | iov :: iovs, stream => (iov.ptr, stream.take iov.len) :: spread iovs (stream.drop iov.len)

/-- What is put into a buffer, as a write. -/
def placed (p : Iovec × Bytes) : ℕ × Bytes := (p.1.ptr, p.2)

/-- Once a buffer is not filled, no other gets anything. -/
def ShortIsLast (got : List (Iovec × Bytes)) : Prop :=
  got.Pairwise fun p q => p.2.length = p.1.len ∨ q.2 = []

/-- **One contiguous stream** fills the buffers exactly if a short read is the last one. -/
theorem placed_eq_spread_iff {got : List (Iovec × Bytes)} (hfits : ∀ p ∈ got, p.2.length ≤ p.1.len) :
    got.map placed = spread (got.map Prod.fst) (got.flatMap Prod.snd) ↔ ShortIsLast got := by
  induction got with
  | nil => exact iff_of_true rfl List.Pairwise.nil
  | cons p got ih =>
    obtain ⟨hp, hrest⟩ := List.forall_mem_cons.mp hfits
    have ih := ih hrest
    rw [ShortIsLast, List.pairwise_cons, List.map_cons, List.map_cons, List.flatMap_cons, spread, placed,
      List.cons.injEq, Prod.mk.injEq]
    by_cases hfull : p.2.length = p.1.len
    · have htake : (p.2 ++ got.flatMap Prod.snd).take p.1.len = p.2 := List.take_left' hfull
      have hdrop : (p.2 ++ got.flatMap Prod.snd).drop p.1.len = got.flatMap Prod.snd := List.drop_left' hfull
      rw [htake, hdrop, ih]
      exact ⟨fun h => ⟨fun q _ => Or.inl hfull, h.2⟩, fun h => ⟨⟨rfl, rfl⟩, h.2⟩⟩
    · constructor
      · rintro ⟨⟨-, hhead⟩, htail⟩
        have hnil : got.flatMap Prod.snd = [] := by
          have hlen := congrArg List.length hhead
          rw [List.length_take, List.length_append] at hlen
          exact List.eq_nil_of_length_eq_zero (by omega)
        rw [hnil, List.append_nil, List.drop_eq_nil_of_le (by omega)] at htail
        rw [hnil] at ih
        exact ⟨fun q hq => Or.inr (List.flatMap_eq_nil_iff.mp hnil q hq), ih.mp htail⟩
      · rintro ⟨hempty, htail⟩
        have hnil : got.flatMap Prod.snd = [] :=
          List.flatMap_eq_nil_iff.mpr fun q hq => (hempty q hq).resolve_left hfull
        have htail' := ih.mpr htail
        rw [hnil] at htail'
        rw [hnil, List.append_nil, List.take_of_length_le hp, List.drop_eq_nil_of_le hp]
        exact ⟨⟨rfl, rfl⟩, htail'⟩

section Scatter

variable (iovsPtr : ℕ) (source : ℕ → ℕ → Bytes → Got)

/-- What the host gives in a turn, with the buffer. -/
def gotAt (i : ℕ) (s : Receiving) : List (Iovec × Bytes) :=
  let iov := s.memory.iovecAt iovsPtr i
  if 0 < iov.len then
    match source i iov.len s.stdin with
    | .bytes data _ _ => [(iov, data)]
    | .nothing => [(iov, [])]
    | _ => []
  else []

/-- What it gives in the turns from `i` on. -/
def delivered : ℕ → ℕ → Receiving → List (Iovec × Bytes)
  | 0, _, _ => []
  | n + 1, i, s => gotAt iovsPtr source i s ++
    match scattered iovsPtr source i s with
    | .next s' => delivered n (i + 1) s'
    | _ => []

/-- The buffers that the guest lists, but for the empty ones, which a loop passes over. -/
def GuestMemory.buffersAt (mem : GuestMemory) (iovsPtr n i : ℕ) : List Iovec :=
  ((List.range' i n).map (mem.iovecAt iovsPtr)).filter (0 < ·.len)

/-- No buffer overlaps an entry of the list that comes after its own. -/
def Apart (mem : GuestMemory) (n : ℕ) : Prop :=
  ∀ j < n, 0 < (mem.iovecAt iovsPtr j).len →
    (mem.iovecAt iovsPtr j).ptr + (mem.iovecAt iovsPtr j).len ≤ iovsPtr + (j + 1) * 8 ∨
      iovsPtr + n * 8 ≤ (mem.iovecAt iovsPtr j).ptr

instance (mem : GuestMemory) (n : ℕ) : Decidable (Apart iovsPtr mem n) :=
  inferInstanceAs (Decidable (∀ j < n, _))

variable {iovsPtr source} {n i : ℕ} {s : Receiving}

theorem state_scattered : (scattered iovsPtr source i s).state.memory =
      s.memory.fillAll ((gotAt iovsPtr source i s).map placed) ∧
    (scattered iovsPtr source i s).state.total =
      s.total + ((gotAt iovsPtr source i s).flatMap Prod.snd).length := by
  unfold scattered gotAt
  dsimp only
  split_ifs with hlen
  · cases source i (s.memory.iovecAt iovsPtr i).len s.stdin with
    | bytes data stdin more =>
      cases more with
      | true => exact ⟨rfl, by simp [Turn.state]⟩
      | false => exact ⟨rfl, by simp [Turn.state]⟩
    | nothing => exact ⟨rfl, by simp [Turn.state]⟩
    | leave => exact ⟨rfl, rfl⟩
    | ret e => exact ⟨rfl, rfl⟩
  · exact ⟨rfl, rfl⟩

theorem fillAll_append (m : GuestMemory) (w w' : List (ℕ × Bytes)) : m.fillAll (w ++ w') = (m.fillAll w).fillAll w' :=
  List.foldl_append

theorem state_ending_scattered : (ending (scattered iovsPtr source) n i s).state.memory =
      s.memory.fillAll ((delivered iovsPtr source n i s).map placed) ∧
    (ending (scattered iovsPtr source) n i s).state.total =
      s.total + ((delivered iovsPtr source n i s).flatMap Prod.snd).length := by
  induction n generalizing i s with
  | zero => exact ⟨rfl, rfl⟩
  | succ n ih =>
    have hturn : _ ∧ _ := @state_scattered iovsPtr source i s
    rw [ending, delivered, List.map_append, List.flatMap_append, List.length_append, fillAll_append, ← hturn.1,
      ← Nat.add_assoc, ← hturn.2]
    cases scattered iovsPtr source i s with
    | next s' => exact ih
    | leave s' => exact ⟨rfl, rfl⟩
    | ret r s' => exact ⟨rfl, rfl⟩

/-- A source gives at most what is asked for, from standard input or from the host, and an error is none of the
numbers that mean success. -/
structure Honest (fromStdin : Bool) (source : ℕ → ℕ → Bytes → Got) : Prop where
  fits : ∀ {i len stdin data stdin' more}, source i len stdin = .bytes data stdin' more → data.length ≤ len
  takes : ∀ {i len stdin data stdin' more}, source i len stdin = .bytes data stdin' more →
    (if fromStdin then data ++ stdin' else stdin') = stdin
  fails : ∀ {i len stdin e}, source i len stdin = .ret e → e ≠ 0

theorem forall_mem_gotAt {fromStdin : Bool} (hsource : Honest fromStdin source) :
    ∀ p ∈ gotAt iovsPtr source i s, p.1 = s.memory.iovecAt iovsPtr i ∧ p.2.length ≤ p.1.len := by
  unfold gotAt
  dsimp only
  split_ifs with hlen
  · cases hgot : source i (s.memory.iovecAt iovsPtr i).len s.stdin with
    | bytes data stdin more =>
      rw [List.forall_mem_singleton]
      exact ⟨rfl, hsource.fits hgot⟩
    | nothing =>
      rw [List.forall_mem_singleton]
      exact ⟨rfl, Nat.zero_le _⟩
    | leave => exact List.forall_mem_nil _
    | ret e => exact List.forall_mem_nil _
  · exact List.forall_mem_nil _

theorem forall_mem_delivered {fromStdin : Bool} (hsource : Honest fromStdin source) :
    ∀ p ∈ delivered iovsPtr source n i s, p.2.length ≤ p.1.len := by
  induction n generalizing i s with
  | zero => exact List.forall_mem_nil _
  | succ n ih =>
    rw [delivered, List.forall_mem_append]
    refine ⟨fun p hp => (forall_mem_gotAt hsource p hp).2, ?_⟩
    cases scattered iovsPtr source i s with
    | next s' => exact ih
    | leave s' => exact List.forall_mem_nil _
    | ret r s' => exact List.forall_mem_nil _

/-- A turn leaves the entries that come later as they are. -/
theorem iovecAt_scattered {fromStdin : Bool} (hsource : Honest fromStdin source) {mem : GuestMemory} {total j : ℕ}
    (hapart : Apart iovsPtr mem total) (hlen : 0 < (mem.iovecAt iovsPtr i).len)
    (hsame : s.memory.iovecAt iovsPtr i = mem.iovecAt iovsPtr i) (hij : i < j) (hj : j < total) :
    (scattered iovsPtr source i s).state.memory.iovecAt iovsPtr j = s.memory.iovecAt iovsPtr j := by
  have hbeside : ∀ w ∈ (gotAt iovsPtr source i s).map placed,
      w.1 + w.2.length ≤ iovsPtr + j * 8 ∨ iovsPtr + j * 8 + 8 ≤ w.1 := by
    rw [List.forall_mem_map]
    intro p hp
    obtain ⟨hiov, hfits⟩ := forall_mem_gotAt hsource p hp
    rw [hiov, hsame] at hfits
    rw [placed, hiov, hsame]
    dsimp only
    have hbuffer := hapart i (hij.trans hj) hlen
    omega
  rw [GuestMemory.iovecAt, state_scattered.1, GuestMemory.bytesAt_fillAll, GuestMemory.bytesAt_fillAll]
  · rfl
  · intro w hw
    have := hbeside w hw
    omega
  · intro w hw
    have := hbeside w hw
    omega

/-- **The loop finds the guest's own list**, as far as it comes. -/
theorem take_buffersAt {fromStdin : Bool} (hsource : Honest fromStdin source) {mem : GuestMemory} {total : ℕ}
    (hapart : Apart iovsPtr mem total) (htotal : i + n = total)
    (hsame : ∀ j, i ≤ j → j < total → s.memory.iovecAt iovsPtr j = mem.iovecAt iovsPtr j) :
    (mem.buffersAt iovsPtr n i).take (delivered iovsPtr source n i s).length =
      (delivered iovsPtr source n i s).map Prod.fst := by
  induction n generalizing i s with
  | zero => rfl
  | succ n ih =>
    have hhead := hsame i le_rfl (by omega)
    rw [GuestMemory.buffersAt, List.range'_succ, List.map_cons, List.filter_cons, delivered]
    by_cases hlen : 0 < (mem.iovecAt iovsPtr i).len
    · have hlater : ∀ j, i + 1 ≤ j → j < total →
          (scattered iovsPtr source i s).state.memory.iovecAt iovsPtr j = mem.iovecAt iovsPtr j := fun j hij hj =>
        (iovecAt_scattered hsource hapart hlen hhead hij hj).trans (hsame j (by omega) hj)
      have hrest : ∀ s', scattered iovsPtr source i s = .next s' →
          (mem.buffersAt iovsPtr n (i + 1)).take (delivered iovsPtr source n (i + 1) s').length =
            (delivered iovsPtr source n (i + 1) s').map Prod.fst := by
        intro s' hs'
        rw [hs'] at hlater
        exact ih (by omega) hlater
      rw [if_pos (decide_eq_true hlen)]
      unfold gotAt
      unfold scattered at hrest ⊢
      simp only [hhead, if_pos hlen] at hrest ⊢
      cases hgot : source i (mem.iovecAt iovsPtr i).len s.stdin with
      | bytes data stdin more =>
        rw [hgot] at hrest
        cases more with
        | true => exact congrArg (mem.iovecAt iovsPtr i :: ·) (hrest _ rfl)
        | false => rfl
      | nothing =>
        rw [hgot] at hrest
        exact congrArg (mem.iovecAt iovsPtr i :: ·) (hrest _ rfl)
      | leave => rfl
      | ret e => rfl
    · rw [if_neg (by simpa using hlen)]
      unfold gotAt scattered
      simp only [hhead, if_neg hlen, List.nil_append]
      exact ih (by omega) fun j hij hj => hsame j (by omega) hj

theorem stdin_scattered {fromStdin : Bool} (hsource : Honest fromStdin source) :
    (if fromStdin then (gotAt iovsPtr source i s).flatMap Prod.snd ++ (scattered iovsPtr source i s).state.stdin
      else (scattered iovsPtr source i s).state.stdin) = s.stdin := by
  unfold scattered gotAt
  dsimp only
  by_cases hlen : 0 < (s.memory.iovecAt iovsPtr i).len
  · simp only [if_pos hlen]
    cases hgot : source i (s.memory.iovecAt iovsPtr i).len s.stdin with
    | bytes data stdin more =>
      have htakes := hsource.takes hgot
      cases more with
      | true => simpa [Turn.state] using htakes
      | false => simpa [Turn.state] using htakes
    | nothing => simp [Turn.state]
    | leave => simp [Turn.state]
    | ret e => simp [Turn.state]
  · simp [if_neg hlen, Turn.state]

theorem stdin_ending {fromStdin : Bool} (hsource : Honest fromStdin source) :
    (if fromStdin then
        (delivered iovsPtr source n i s).flatMap Prod.snd ++ (ending (scattered iovsPtr source) n i s).state.stdin
      else (ending (scattered iovsPtr source) n i s).state.stdin) = s.stdin := by
  induction n generalizing i s with
  | zero => simp [delivered, ending, Turn.state]
  | succ n ih =>
    have hturn := @stdin_scattered iovsPtr source i s fromStdin hsource
    rw [ending, delivered, List.flatMap_append]
    cases hs : scattered iovsPtr source i s with
    | next s' =>
      rw [hs] at hturn
      rw [List.append_assoc]
      have hrest := @ih (i + 1) s'
      cases fromStdin with
      | true => exact (congrArg (_ ++ ·) hrest).trans hturn
      | false => exact hrest.trans hturn
    | leave s' =>
      rw [hs] at hturn
      simpa using hturn
    | ret r s' =>
      rw [hs] at hturn
      simpa using hturn

theorem length_delivered_lt (htotal : s.total < 2 ^ 32)
    (h : AllTurns (scattered iovsPtr source) (ScatterOk iovsPtr source) n i s) :
    s.total + ((delivered iovsPtr source n i s).flatMap Prod.snd).length < 2 ^ 32 := by
  induction n generalizing i s with
  | zero => exact htotal
  | succ n ih =>
    obtain ⟨hok, hrest⟩ := allTurns_succ.mp h
    have hturn : (scattered iovsPtr source i s).state.total < 2 ^ 32 := by
      have hcounted := hok.counted
      unfold scattered
      dsimp only
      split_ifs with hlen
      · cases hgot : source i (s.memory.iovecAt iovsPtr i).len s.stdin with
        | bytes data stdin more =>
          have hlt := hcounted data stdin more hlen hgot
          cases more with
          | true => exact hlt
          | false => exact hlt
        | nothing => exact htotal
        | leave => exact htotal
        | ret e => exact htotal
      · exact htotal
    rw [delivered, List.flatMap_append, List.length_append, ← Nat.add_assoc, ← state_scattered.2]
    cases hs : scattered iovsPtr source i s with
    | next s' =>
      rw [hs] at hturn
      exact ih hturn (hrest s' hs)
    | leave s' =>
      rw [hs] at hturn
      exact hturn
    | ret r s' =>
      rw [hs] at hturn
      exact hturn

theorem ret_scattered {fromStdin : Bool} (hsource : Honest fromStdin source) {e : Int32} {s' : Receiving}
    (h : scattered iovsPtr source i s = .ret e s') : e ≠ 0 := by
  unfold scattered at h
  dsimp only at h
  split_ifs at h with hlen
  cases hgot : source i (s.memory.iovecAt iovsPtr i).len s.stdin with
  | bytes data stdin more =>
    rw [hgot] at h
    cases more with
    | true => simp at h
    | false => simp at h
  | nothing =>
    rw [hgot] at h
    simp at h
  | leave =>
    rw [hgot] at h
    simp at h
  | ret e' =>
    rw [hgot] at h
    obtain ⟨rfl, -⟩ := Turn.ret.inj h
    exact hsource.fails hgot

theorem ret_ending {fromStdin : Bool} (hsource : Honest fromStdin source) {e : Int32} {s' : Receiving}
    (h : ending (scattered iovsPtr source) n i s = .ret e s') : e ≠ 0 := by
  induction n generalizing i s with
  | zero => simp [ending] at h
  | succ n ih =>
    rw [ending] at h
    cases hs : scattered iovsPtr source i s with
    | next s₁ =>
      rw [hs] at h
      exact ih h
    | leave s₁ =>
      rw [hs] at h
      simp at h
    | ret r s₁ =>
      rw [hs] at h
      obtain ⟨rfl, -⟩ := Turn.ret.inj h
      exact ret_scattered hsource hs

end Scatter

end VelocityMcp.Wasm
