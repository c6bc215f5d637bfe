import VelocityMcp.Wasm.Transfers

/-!
# Wasm.Streams — the functions that move bytes, as streams (`wasm_runtime/wasi.rs`)

`moves_streams_iff`: when `fd_write`, `sock_send`, `fd_read` and `sock_recv` move one stream.
-/

namespace VelocityMcp.Wasm

open Lib

/-! ## The loops -/

section Writes

variable (env : WasiEnv) (host : WasiHost)

/-- The bytes that the host takes are the first that the buffers hold, and the call reports how many they are; a call
that fails has moved none. -/
def WritesStream (iovsPtr iovsLen countPtr : Int32) (answer : Answer) : Prop :=
  ∃ mem, env.memory = some mem ∧
    let taken := sent mem (asU64 iovsPtr) host.write (asU64 iovsLen) 0
    (taken <+: contents mem (asU64 iovsPtr) (asU64 iovsLen) 0 ∧ taken.length < 2 ^ 32 ∧
      answer = some (env.withMemory (mem.fill (asU64 countPtr) (leBytes 4 taken.length)), 0)) ∨
    (taken = [] ∧ ∃ e, e ≠ 0 ∧ answer = some (env, e))

/-- After a short write nothing more is written, or what was left out; and no write fails for good after others. -/
def Unbroken (iovsPtr iovsLen : Int32) (sink : ℕ → Bytes → Option (Turn Int32 ℕ)) : Prop :=
  ∀ mem, env.memory = some mem →
    (ReturnsIn (gathered mem (asU64 iovsPtr) sink) (asU64 iovsLen) 0 0 →
      sent mem (asU64 iovsPtr) host.write (asU64 iovsLen) 0 = []) ∧
    (¬ReturnsIn (gathered mem (asU64 iovsPtr) sink) (asU64 iovsLen) 0 0 →
      Seamless mem (asU64 iovsPtr) host.write (asU64 iovsLen) 0)

variable {env host} {iovsPtr iovsLen countPtr : Int32} {sink : ℕ → Bytes → Option (Turn Int32 ℕ)}

theorem store_of_within {mem : GuestMemory} (hmem : env.memory = some mem) {writes : List (Int32 × Bytes)}
    (h : ∀ w ∈ writes, mem.Within (asU64 w.1) w.2.length) :
    env.store writes = some (env.withMemory (mem.fillAll (writes.map fun w => (asU64 w.1, w.2))), 0) := by
  rw [WasiEnv.store, hmem, Option.bind_eq_bind, Option.bind_some, GuestMemory.putAll_of_within]
  · rfl
  · rw [List.forall_mem_map]
    exact h

theorem gather_of_inside (hsink : Relays host.write sink)
    (h : env.GathersInside iovsPtr iovsLen sink countPtr) {mem : GuestMemory} (hmem : env.memory = some mem) :
    let taken := sent mem (asU64 iovsPtr) host.write (asU64 iovsLen) 0
    taken.length < 2 ^ 32 ∧
      ((ReturnsIn (gathered mem (asU64 iovsPtr) sink) (asU64 iovsLen) 0 0 ∧
          ∃ e, e ≠ 0 ∧ env.gather iovsPtr iovsLen sink countPtr = some (env, e)) ∨
        (¬ReturnsIn (gathered mem (asU64 iovsPtr) sink) (asU64 iovsLen) 0 0 ∧
          env.gather iovsPtr iovsLen sink countPtr =
            some (env.withMemory (mem.fill (asU64 countPtr) (leBytes 4 taken.length)), 0))) := by
  obtain ⟨mem', hmem', hall, hafter⟩ := h
  obtain rfl := Option.some.inj (hmem'.symm.trans hmem)
  have hcount := length_sent_lt hsink (by norm_num) hall
  rw [Nat.zero_add] at hcount
  refine ⟨hcount, ?_⟩
  have hloop := forRange_eq_ending (checks_gatherTurn mem' (asU64 iovsPtr) sink) hall
  have hgather : env.gather iovsPtr iovsLen sink countPtr =
      env.afterGather countPtr (ending (gathered mem' (asU64 iovsPtr) sink) (asU64 iovsLen) 0 0) := by
    rw [WasiEnv.gather, hmem, Option.bind_eq_bind, Option.bind_some, hloop]
    rfl
  have hstored : (∃ t, ending (gathered mem' (asU64 iovsPtr) sink) (asU64 iovsLen) 0 0 = t ∧ ∀ r s, t ≠ .ret r s) →
      ¬ReturnsIn (gathered mem' (asU64 iovsPtr) sink) (asU64 iovsLen) 0 0 ∧
      env.store [(countPtr, leBytes 4 (sent mem' (asU64 iovsPtr) host.write (asU64 iovsLen) 0).length)] =
        some (env.withMemory (mem'.fill (asU64 countPtr)
          (leBytes 4 (sent mem' (asU64 iovsPtr) host.write (asU64 iovsLen) 0).length)), 0) := by
    rintro ⟨t, ht, hne⟩
    have hreturns : ¬ReturnsIn (gathered mem' (asU64 iovsPtr) sink) (asU64 iovsLen) 0 0 := by
      rw [← ending_eq_ret_iff]
      rintro ⟨r, s, hret⟩
      exact hne r s (ht.symm.trans hret)
    obtain ⟨mem'', hmem'', hin⟩ := hafter.resolve_left hreturns
    obtain rfl := Option.some.inj (hmem''.symm.trans hmem)
    refine ⟨hreturns, store_of_within hmem ?_⟩
    rw [List.forall_mem_singleton, length_leBytes]
    exact hin (countPtr, 4) List.mem_cons_self
  rw [hgather]
  rcases ending_gathered hsink (asU64 iovsLen) 0 0 with hend | hend | ⟨e, he, hend⟩
  · right
    obtain ⟨hreturns, hstore⟩ := hstored ⟨_, hend, nofun⟩
    rw [hend, Nat.zero_add]
    exact ⟨hreturns, hstore⟩
  · right
    obtain ⟨hreturns, hstore⟩ := hstored ⟨_, hend, nofun⟩
    rw [hend, Nat.zero_add]
    exact ⟨hreturns, hstore⟩
  · left
    rw [hend]
    exact ⟨ending_eq_ret_iff.mp ⟨_, _, hend⟩, e, he, rfl⟩

/-- **Writes**: what goes right moves one stream exactly if it is unbroken. -/
theorem writesStream_gather_iff (hsink : Relays host.write sink) :
    WritesStream env host iovsPtr iovsLen countPtr (env.gather iovsPtr iovsLen sink countPtr) ↔
      env.GathersInside iovsPtr iovsLen sink countPtr ∧ Unbroken env host iovsPtr iovsLen sink := by
  constructor
  · rintro ⟨mem, hmem, h⟩
    have hinside : env.GathersInside iovsPtr iovsLen sink countPtr := by
      rw [← WasiEnv.gather_returns_iff]
      rcases h with ⟨-, -, h⟩ | ⟨-, e, -, h⟩
      · rw [h]
        rfl
      · rw [h]
        rfl
    refine ⟨hinside, ?_⟩
    intro mem' hmem'
    obtain rfl := Option.some.inj (hmem'.symm.trans hmem)
    obtain ⟨-, ⟨hret, e, he, hanswer⟩ | ⟨hnot, hanswer⟩⟩ := gather_of_inside hsink hinside hmem
    · refine ⟨fun _ => ?_, fun hnot => absurd hret hnot⟩
      rcases h with ⟨-, -, h⟩ | ⟨hnone, -⟩
      · exact absurd (congrArg Prod.snd (Option.some.inj (hanswer.symm.trans h))) he
      · exact hnone
    · refine ⟨fun hret => absurd hret hnot, fun _ => sent_prefix_iff.mp ?_⟩
      rcases h with ⟨hfront, -⟩ | ⟨hnone, -⟩
      · exact hfront
      · rw [hnone]
        exact List.nil_prefix
  · rintro ⟨hinside, hunbroken⟩
    obtain ⟨mem, hmem, -⟩ := id hinside
    refine ⟨mem, hmem, ?_⟩
    obtain ⟨hcount, ⟨hret, e, he, hanswer⟩ | ⟨hnot, hanswer⟩⟩ := gather_of_inside hsink hinside hmem
    · exact Or.inr ⟨(hunbroken mem hmem).1 hret, e, he, hanswer⟩
    · exact Or.inl ⟨sent_prefix_iff.mpr ((hunbroken mem hmem).2 hnot), hcount, hanswer⟩

end Writes

section Reads

variable (env : WasiEnv) (fromStdin : Bool) (iovsPtr iovsLen countPtr : Int32) (zeroPtrs : List Int32)
  (source : ℕ → ℕ → Bytes → Got)

def deliveredIn (mem : GuestMemory) : List (Iovec × Bytes) :=
  delivered (asU64 iovsPtr) source (asU64 iovsLen) 0 ⟨mem, env.stdinBuffer, 0⟩

/-- The bytes that the host gives fill the buffers that the guest lists at the call, from the first on, and the call
reports how many they are; nothing is lost of standard input, and a call that fails has taken nothing. -/
def ReadsStream (answer : Answer) : Prop :=
  ∃ mem, env.memory = some mem ∧
    let got := deliveredIn env iovsPtr iovsLen source mem
    let stream := got.flatMap Prod.snd
    let buffers := (mem.buffersAt (asU64 iovsPtr) (asU64 iovsLen) 0).take got.length
    (got.map placed = spread buffers stream ∧ stream.length < 2 ^ 32 ∧
      ∃ stdin, (if fromStdin then stream ++ stdin else stdin) = env.stdinBuffer ∧
        answer = some ({ env with
          memory := some ((mem.fillAll (spread buffers stream)).fillAll
            ((asU64 countPtr, leBytes 4 stream.length) :: zeroPtrs.map (asU64 ·, leBytes 4 0)))
          stdinBuffer := stdin }, 0)) ∨
    (stream = [] ∧ ∃ e left, e ≠ 0 ∧ answer = some (left, e))

/-- No buffer of the guest's list overlaps an entry that comes after its own. -/
def ListStands : Prop := ∀ mem, env.memory = some mem → Apart (asU64 iovsPtr) mem (asU64 iovsLen)

/-- After a short read none gives anything, and no read fails for good after others. -/
def Unspoiled : Prop :=
  ∀ mem, env.memory = some mem →
    (ReturnsIn (scattered (asU64 iovsPtr) source) (asU64 iovsLen) 0 ⟨mem, env.stdinBuffer, 0⟩ →
      (deliveredIn env iovsPtr iovsLen source mem).flatMap Prod.snd = []) ∧
    (¬ReturnsIn (scattered (asU64 iovsPtr) source) (asU64 iovsLen) 0 ⟨mem, env.stdinBuffer, 0⟩ →
      ShortIsLast (deliveredIn env iovsPtr iovsLen source mem))

variable {env fromStdin iovsPtr iovsLen countPtr zeroPtrs source}

theorem scatter_of_inside (hsource : Honest fromStdin source)
    (h : env.ScattersInside iovsPtr iovsLen source (countPtr :: zeroPtrs)) {mem : GuestMemory}
    (hmem : env.memory = some mem) :
    let got := deliveredIn env iovsPtr iovsLen source mem
    let stream := got.flatMap Prod.snd
    let answer := env.scatter iovsPtr iovsLen source countPtr zeroPtrs
    stream.length < 2 ^ 32 ∧
      ((ReturnsIn (scattered (asU64 iovsPtr) source) (asU64 iovsLen) 0 ⟨mem, env.stdinBuffer, 0⟩ ∧
          ∃ e left, e ≠ 0 ∧ answer = some (left, e)) ∨
        (¬ReturnsIn (scattered (asU64 iovsPtr) source) (asU64 iovsLen) 0 ⟨mem, env.stdinBuffer, 0⟩ ∧
          ∃ stdin, (if fromStdin then stream ++ stdin else stdin) = env.stdinBuffer ∧
            answer = some ({ env with
              memory := some ((mem.fillAll (got.map placed)).fillAll
                ((asU64 countPtr, leBytes 4 stream.length) :: zeroPtrs.map (asU64 ·, leBytes 4 0)))
              stdinBuffer := stdin }, 0))) := by
  obtain ⟨mem', hmem', hall, hafter⟩ := h
  obtain rfl := Option.some.inj (hmem'.symm.trans hmem)
  have hcount := length_delivered_lt (by norm_num) hall
  rw [Nat.zero_add] at hcount
  refine ⟨hcount, ?_⟩
  have hloop := forRange_eq_ending (checks_scatterTurn (asU64 iovsPtr) source) hall
  have hscatter : env.scatter iovsPtr iovsLen source countPtr zeroPtrs = env.afterScatter countPtr zeroPtrs
      (ending (scattered (asU64 iovsPtr) source) (asU64 iovsLen) 0 ⟨mem', env.stdinBuffer, 0⟩) := by
    rw [WasiEnv.scatter, hmem, Option.bind_eq_bind, Option.bind_some, hloop]
    rfl
  have hstate := @state_ending_scattered (asU64 iovsPtr) source (asU64 iovsLen) 0 ⟨mem', env.stdinBuffer, 0⟩
  have hstdin := @stdin_ending (asU64 iovsPtr) source (asU64 iovsLen) 0 ⟨mem', env.stdinBuffer, 0⟩ fromStdin hsource
  rw [Nat.zero_add] at hstate
  -- the counts are stored behind the delivered bytes
  have hstored : ∀ s,
      (ending (scattered (asU64 iovsPtr) source) (asU64 iovsLen) 0 ⟨mem', env.stdinBuffer, 0⟩).state = s →
      env.Has ((countPtr :: zeroPtrs).map (·, 4)) →
      (env.received s).store ((countPtr, leBytes 4 s.total) :: zeroPtrs.map (·, leBytes 4 0)) =
        some ({ env with
          memory := some ((mem'.fillAll ((deliveredIn env iovsPtr iovsLen source mem').map placed)).fillAll
            ((asU64 countPtr, leBytes 4 ((deliveredIn env iovsPtr iovsLen source mem').flatMap Prod.snd).length) ::
              zeroPtrs.map (asU64 ·, leBytes 4 0)))
          stdinBuffer := s.stdin }, 0) := by
    rintro s rfl ⟨mem'', hmem'', hin⟩
    obtain rfl := Option.some.inj (hmem''.symm.trans hmem)
    obtain ⟨hmemory, htotal⟩ := hstate
    rw [store_of_within rfl]
    · rw [hmemory, htotal, List.map_cons, List.map_map]
      rfl
    · rw [hmemory]
      intro w hw
      have hw' : (w.1, w.2.length) ∈ (countPtr :: zeroPtrs).map (·, 4) := by
        rcases List.mem_cons.mp hw with rfl | hw
        · simp
        · obtain ⟨z, hz, rfl⟩ := List.mem_map.mp hw
          simp [hz]
      have hsmall := hin _ hw'
      unfold GuestMemory.Within at hsmall ⊢
      rwa [GuestMemory.size_fillAll]
  have hreturns : ∀ t, ending (scattered (asU64 iovsPtr) source) (asU64 iovsLen) 0 ⟨mem', env.stdinBuffer, 0⟩ = t →
      (∀ r s, t ≠ .ret r s) →
      ¬ReturnsIn (scattered (asU64 iovsPtr) source) (asU64 iovsLen) 0 ⟨mem', env.stdinBuffer, 0⟩ := by
    intro t ht hne
    rw [← ending_eq_ret_iff]
    rintro ⟨r, s, hret⟩
    exact hne r s (ht.symm.trans hret)
  rw [hscatter]
  -- the loop runs to its end, is left after a short read, or returns an errno
  cases hend : ending (scattered (asU64 iovsPtr) source) (asU64 iovsLen) 0 ⟨mem', env.stdinBuffer, 0⟩ with
  | next s =>
    right
    have hnot := hreturns _ hend nofun
    rw [hend] at hstdin hstored
    exact ⟨hnot, s.stdin, hstdin, hstored s rfl (hafter.resolve_left hnot)⟩
  | leave s =>
    right
    have hnot := hreturns _ hend nofun
    rw [hend] at hstdin hstored
    exact ⟨hnot, s.stdin, hstdin, hstored s rfl (hafter.resolve_left hnot)⟩
  | ret e s => exact Or.inl ⟨ending_eq_ret_iff.mp ⟨e, s, hend⟩, e, _, ret_ending hsource hend, rfl⟩

/-- **Reads**: what goes right moves one stream exactly if it is unspoiled. -/
theorem readsStream_scatter_iff (hsource : Honest fromStdin source) (hlist : ListStands env iovsPtr iovsLen) :
    ReadsStream env fromStdin iovsPtr iovsLen countPtr zeroPtrs source
        (env.scatter iovsPtr iovsLen source countPtr zeroPtrs) ↔
      env.ScattersInside iovsPtr iovsLen source (countPtr :: zeroPtrs) ∧ Unspoiled env iovsPtr iovsLen source := by
  have hfits : ∀ {mem}, ∀ p ∈ deliveredIn env iovsPtr iovsLen source mem, p.2.length ≤ p.1.len :=
    forall_mem_delivered hsource
  have hbuffers : ∀ mem, env.memory = some mem →
      (mem.buffersAt (asU64 iovsPtr) (asU64 iovsLen) 0).take (deliveredIn env iovsPtr iovsLen source mem).length =
        (deliveredIn env iovsPtr iovsLen source mem).map Prod.fst := fun mem hmem =>
    take_buffersAt hsource (hlist mem hmem) (Nat.zero_add _) fun _ _ _ => rfl
  constructor
  · rintro ⟨mem, hmem, h⟩
    dsimp only at h
    rw [hbuffers mem hmem] at h
    have hinside : env.ScattersInside iovsPtr iovsLen source (countPtr :: zeroPtrs) := by
      rw [← WasiEnv.scatter_returns_iff]
      rcases h with ⟨-, -, stdin, -, h⟩ | ⟨-, e, left, -, h⟩
      · rw [h]
        rfl
      · rw [h]
        rfl
    refine ⟨hinside, ?_⟩
    intro mem' hmem'
    obtain rfl := Option.some.inj (hmem'.symm.trans hmem)
    obtain ⟨-, ⟨hret, e, left, he, hanswer⟩ | ⟨hnot, stdin, -, hanswer⟩⟩ := scatter_of_inside hsource hinside hmem
    · refine ⟨fun _ => ?_, fun hnot => absurd hret hnot⟩
      rcases h with ⟨-, -, stdin, -, h⟩ | ⟨hnone, -⟩
      · exact absurd (congrArg Prod.snd (Option.some.inj (hanswer.symm.trans h))) he
      · exact hnone
    · refine ⟨fun hret => absurd hret hnot, fun _ => ?_⟩
      rcases h with ⟨hfill, -⟩ | ⟨hnone, e, left, he, h⟩
      · exact (placed_eq_spread_iff hfits).mp hfill
      · exact absurd (congrArg Prod.snd (Option.some.inj (hanswer.symm.trans h))).symm he
  · rintro ⟨hinside, hunspoiled⟩
    obtain ⟨mem, hmem, -⟩ := id hinside
    refine ⟨mem, hmem, ?_⟩
    dsimp only
    rw [hbuffers mem hmem]
    obtain ⟨hcount, ⟨hret, e, left, he, hanswer⟩ | ⟨hnot, stdin, hstdin, hanswer⟩⟩ :=
      scatter_of_inside hsource hinside hmem
    · exact Or.inr ⟨(hunspoiled mem hmem).1 hret, e, left, he, hanswer⟩
    · have hfill := (placed_eq_spread_iff hfits).mpr ((hunspoiled mem hmem).2 hnot)
      rw [hfill] at hanswer
      exact Or.inl ⟨hfill, hcount, stdin, hstdin, hanswer⟩

/-- A source that never fails for good, and that is used up after a short read, spoils nothing. -/
theorem unspoiled_of_drained (Drained : Bytes → Prop) (hret : ∀ i len stdin e, source i len stdin ≠ .ret e)
    (hfull : ∀ {i len stdin data stdin'}, source i len stdin = .bytes data stdin' true →
      data.length = len ∨ Drained stdin')
    (hnothing : ∀ {i len stdin}, source i len stdin = .nothing ↔ Drained stdin) :
    Unspoiled env iovsPtr iovsLen source := by
  have hreturns : ∀ {n s}, ¬ReturnsIn (scattered (asU64 iovsPtr) source) n 0 s := by
    rintro n s ⟨j, t, r, t', -, -, h⟩
    unfold scattered at h
    dsimp only at h
    split_ifs at h
    split at h
    · split_ifs at h
    · simp at h
    · simp at h
    · rename_i e he
      exact hret _ _ _ _ he
  have hempty : ∀ {n i s}, Drained s.stdin → ∀ p ∈ delivered (asU64 iovsPtr) source n i s, p.2 = [] := by
    intro n
    induction n with
    | zero => exact fun _ => List.forall_mem_nil _
    | succ n ih =>
      intro i s hs
      have hsource := (@hnothing i (s.memory.iovecAt (asU64 iovsPtr) i).len _).mpr hs
      rw [delivered, gotAt, scattered, hsource, List.forall_mem_append]
      dsimp only
      split_ifs with hlen
      · exact ⟨fun p hp => by rw [List.mem_singleton.mp hp], ih hs⟩
      · exact ⟨List.forall_mem_nil _, ih hs⟩
  have hshort : ∀ {n i s}, ShortIsLast (delivered (asU64 iovsPtr) source n i s) := by
    intro n
    induction n with
    | zero => exact List.Pairwise.nil
    | succ n ih =>
      intro i s
      rw [delivered, ShortIsLast, gotAt, scattered]
      dsimp only
      split_ifs with hlen
      · cases hgot : source i (s.memory.iovecAt (asU64 iovsPtr) i).len s.stdin with
        | bytes data stdin more =>
          cases more with
          | true =>
            rw [List.singleton_append, List.pairwise_cons]
            refine ⟨fun q hq => ?_, ih⟩
            exact (hfull hgot).imp_right fun hs => hempty hs q hq
          | false => exact List.pairwise_singleton _ _
        | nothing =>
          rw [List.singleton_append, List.pairwise_cons]
          exact ⟨fun q hq => Or.inr (hempty (hnothing.mp hgot) q hq), ih⟩
        | leave => exact List.Pairwise.nil
        | ret e => exact List.Pairwise.nil
      · exact ih
  exact fun mem _ => ⟨fun h => absurd h hreturns, fun _ => hshort⟩

end Reads

/-! ## The functions -/

section Functions

variable (host : WasiHost)

theorem relays_streamSink : Relays host.write (WasiEnv.streamSink host) := by
  intro i data
  cases h : host.write i data with
  | ok k => simp [WasiEnv.streamSink, h]
  | error e => simp [WasiEnv.streamSink, h]

theorem relays_sendSink : Relays host.write (WasiEnv.sendSink host) := by
  intro i data
  cases h : host.write i data with
  | ok k => simp [WasiEnv.sendSink, h]
  | error e =>
    cases e with
    | wouldBlock => simp [WasiEnv.sendSink, h]
    | other => exact Or.inr ⟨errnoConnaborted, by decide, by simp [WasiEnv.sendSink, h]⟩

theorem honest_stdinSource : Honest true WasiEnv.stdinSource where
  fits h := by
    unfold WasiEnv.stdinSource at h
    split_ifs at h
    obtain ⟨rfl, -⟩ := Got.bytes.inj h
    exact List.length_take_le _ _
  takes h := by
    unfold WasiEnv.stdinSource at h
    split_ifs at h
    obtain ⟨rfl, rfl, -⟩ := Got.bytes.inj h
    exact List.take_append_drop _ _
  fails h := by
    unfold WasiEnv.stdinSource at h
    split_ifs at h

theorem honest_fileSource : Honest false (WasiEnv.fileSource host) where
  fits {i len} _ _ _ _ h := by
    unfold WasiEnv.fileSource at h
    cases hread : host.read i len with
    | ok data =>
      rw [hread] at h
      obtain ⟨rfl, -⟩ := Got.bytes.inj h
      exact data.2
    | error e => simp [hread] at h
  takes {i len} _ _ _ _ h := by
    unfold WasiEnv.fileSource at h
    cases hread : host.read i len with
    | ok data =>
      rw [hread] at h
      exact (Got.bytes.inj h).2.1.symm
    | error e => simp [hread] at h
  fails {i len} _ _ h := by
    unfold WasiEnv.fileSource at h
    cases hread : host.read i len with
    | ok data => simp [hread] at h
    | error e => simp [hread] at h

theorem honest_recvSource : Honest false (WasiEnv.recvSource host) where
  fits {i len} _ _ _ _ h := by
    unfold WasiEnv.recvSource at h
    cases hread : host.read i len with
    | ok data =>
      simp only [hread] at h
      split_ifs at h
      obtain ⟨rfl, -⟩ := Got.bytes.inj h
      exact data.2
    | error e => cases e <;> simp [hread] at h
  takes {i len} _ _ _ _ h := by
    unfold WasiEnv.recvSource at h
    cases hread : host.read i len with
    | ok data =>
      simp only [hread] at h
      split_ifs at h
      exact (Got.bytes.inj h).2.1.symm
    | error e => cases e <;> simp [hread] at h
  fails {i len} _ _ h := by
    unfold WasiEnv.recvSource at h
    cases hread : host.read i len with
    | ok data =>
      simp only [hread] at h
      split_ifs at h
    | error e =>
      cases e with
      | wouldBlock => simp [hread] at h
      | other =>
        simp only [hread, Got.ret.injEq] at h
        rw [← h]
        decide

/-- There is a file or a socket for `fd_write`. -/
def Writable (env : WasiEnv) (networking : Bool) (fd : Int32) : Prop :=
  if networking ∧ socketFdBase ≤ fd then env.socketState.sockets fd = true else 3 ≤ fd ∧ env.fsState.files fd ≠ none

variable {host} {env : WasiEnv}

theorem memory_bind_eq {x y : Answer} (hsome : x = y) (hnone : env.memory = none → y = none) :
    (env.memory >>= fun _ => x) = y := by
  cases hmem : env.memory with
  | none => exact (hnone hmem).symm
  | some mem => exact hsome

theorem gather_of_none {iovsPtr iovsLen countPtr : Int32} {sink : ℕ → Bytes → Option (Turn Int32 ℕ)}
    (hmem : env.memory = none) : env.gather iovsPtr iovsLen sink countPtr = none := by
  rw [WasiEnv.gather, hmem]
  rfl

theorem scatter_of_none {iovsPtr iovsLen countPtr : Int32} {source : ℕ → ℕ → Bytes → Got} {zeroPtrs : List Int32}
    (hmem : env.memory = none) : env.scatter iovsPtr iovsLen source countPtr zeroPtrs = none := by
  rw [WasiEnv.scatter, hmem]
  rfl

theorem fdWrite_of_writable {networking : Bool} {fd iovsPtr iovsLen nwrittenPtr : Int32}
    (h : Writable env networking fd) : env.fdWrite host networking fd iovsPtr iovsLen nwrittenPtr =
      env.gather iovsPtr iovsLen (WasiEnv.streamSink host) nwrittenPtr := by
  unfold Writable at h
  refine memory_bind_eq ?_ gather_of_none
  by_cases hsocket : networking ∧ socketFdBase ≤ fd
  · rw [if_pos hsocket] at h
    have hsink : env.socketSink host fd = WasiEnv.streamSink host := by
      funext i data
      rw [WasiEnv.socketSink, if_pos h]
    rw [if_pos hsocket, hsink]
  · rw [if_neg hsocket] at h
    obtain ⟨file, hfile⟩ := Option.ne_none_iff_exists'.mp h.2
    rw [if_neg hsocket, if_pos h.1, hfile]

theorem sockSend_of_socket {fd siDataPtr siDataLen soDatalenPtr : Int32} (h : env.socketState.sockets fd = true) :
    env.sockSend host true fd siDataPtr siDataLen soDatalenPtr =
      env.gather siDataPtr siDataLen (WasiEnv.sendSink host) soDatalenPtr := by
  refine memory_bind_eq ?_ gather_of_none
  rw [if_pos h]

theorem fdRead_of_stdin {iovsPtr iovsLen nreadPtr : Int32} (h : env.stdinBuffer ≠ []) :
    env.fdRead host 0 iovsPtr iovsLen nreadPtr = env.scatter iovsPtr iovsLen WasiEnv.stdinSource nreadPtr [] := by
  refine memory_bind_eq ?_ scatter_of_none
  rw [if_pos rfl, if_neg h]

theorem fdRead_of_file {fd iovsPtr iovsLen nreadPtr : Int32} (hfd : 3 ≤ fd) (hopen : env.fsState.files fd ≠ none) :
    env.fdRead host fd iovsPtr iovsLen nreadPtr =
      env.scatter iovsPtr iovsLen (WasiEnv.fileSource host) nreadPtr [] := by
  have hstdin : ¬fd = 0 := by
    rintro rfl
    exact absurd hfd (by decide)
  obtain ⟨file, hfile⟩ := Option.ne_none_iff_exists'.mp hopen
  refine memory_bind_eq ?_ scatter_of_none
  rw [if_neg hstdin, if_pos hfd, hfile]

theorem sockRecv_of_socket {fd riDataPtr riDataLen roDatalenPtr roFlagsPtr : Int32}
    (h : env.socketState.sockets fd = true) :
    env.sockRecv host true fd riDataPtr riDataLen roDatalenPtr roFlagsPtr =
      env.scatter riDataPtr riDataLen (WasiEnv.recvSource host) roDatalenPtr [roFlagsPtr] := by
  refine memory_bind_eq ?_ scatter_of_none
  rw [if_pos h]

theorem not_returnsIn_streamSink {mem : GuestMemory} {iovsPtr n i total : ℕ} :
    ¬ReturnsIn (gathered mem iovsPtr (WasiEnv.streamSink host)) n i total := by
  rintro ⟨j, t, r, t', -, -, h⟩
  unfold gathered WasiEnv.streamSink at h
  split_ifs at h
  cases hwrite : host.write j (gatheredBytes mem iovsPtr j) with
  | ok k => simp [hwrite] at h
  | error e => simp [hwrite] at h

theorem unspoiled_stdinSource {iovsPtr iovsLen : Int32} : Unspoiled env iovsPtr iovsLen WasiEnv.stdinSource := by
  apply unspoiled_of_drained fun stdin => stdin = []
  · intro i len stdin e h
    unfold WasiEnv.stdinSource at h
    split_ifs at h
  · intro i len stdin data stdin' h
    unfold WasiEnv.stdinSource at h
    split_ifs at h
    obtain ⟨rfl, rfl, -⟩ := Got.bytes.inj h
    rw [List.length_take, List.drop_eq_nil_iff]
    omega
  · intro i len stdin
    unfold WasiEnv.stdinSource
    split_ifs with hempty
    · exact iff_of_true rfl hempty
    · exact iff_of_false (by simp) hempty

theorem unspoiled_fileSource {iovsPtr iovsLen : Int32} : Unspoiled env iovsPtr iovsLen (WasiEnv.fileSource host) := by
  apply unspoiled_of_drained fun _ => False
  · intro i len stdin e h
    unfold WasiEnv.fileSource at h
    cases hread : host.read i len with
    | ok data => simp [hread] at h
    | error e => simp [hread] at h
  · intro i len stdin data stdin' h
    unfold WasiEnv.fileSource at h
    cases hread : host.read i len with
    | ok got =>
      rw [hread] at h
      obtain ⟨rfl, -, hmore⟩ := Got.bytes.inj h
      exact Or.inl (le_antisymm got.2 (of_decide_eq_true hmore))
    | error e => simp [hread] at h
  · intro i len stdin
    unfold WasiEnv.fileSource
    cases hread : host.read i len with
    | ok got => simp
    | error e => simp

/-- **Streams.**  Of the calls that have their file or socket:
* `fd_write` moves one stream exactly if everything lies in the memory and it is seamless;
* `sock_send`, if it is unbroken;
* `fd_read`, where the list stands, always does if everything lies in the memory;
* `sock_recv`, where the list stands, does if it is unspoiled. -/
theorem moves_streams_iff (env : WasiEnv) (host : WasiHost) :
    (∀ (networking : Bool) (fd iovsPtr iovsLen nwrittenPtr : Int32), Writable env networking fd →
      (WritesStream env host iovsPtr iovsLen nwrittenPtr
          (env.fdWrite host networking fd iovsPtr iovsLen nwrittenPtr) ↔
        env.GathersInside iovsPtr iovsLen (WasiEnv.streamSink host) nwrittenPtr ∧
          ∀ mem, env.memory = some mem → Seamless mem (asU64 iovsPtr) host.write (asU64 iovsLen) 0)) ∧
    (∀ fd siDataPtr siDataLen soDatalenPtr : Int32, env.socketState.sockets fd = true →
      (WritesStream env host siDataPtr siDataLen soDatalenPtr
          (env.sockSend host true fd siDataPtr siDataLen soDatalenPtr) ↔
        env.GathersInside siDataPtr siDataLen (WasiEnv.sendSink host) soDatalenPtr ∧
          Unbroken env host siDataPtr siDataLen (WasiEnv.sendSink host))) ∧
    (∀ iovsPtr iovsLen nreadPtr : Int32, env.stdinBuffer ≠ [] → ListStands env iovsPtr iovsLen →
      (ReadsStream env true iovsPtr iovsLen nreadPtr [] WasiEnv.stdinSource
          (env.fdRead host 0 iovsPtr iovsLen nreadPtr) ↔
        env.ScattersInside iovsPtr iovsLen WasiEnv.stdinSource [nreadPtr])) ∧
    (∀ fd iovsPtr iovsLen nreadPtr : Int32, 3 ≤ fd → env.fsState.files fd ≠ none → ListStands env iovsPtr iovsLen →
      (ReadsStream env false iovsPtr iovsLen nreadPtr [] (WasiEnv.fileSource host)
          (env.fdRead host fd iovsPtr iovsLen nreadPtr) ↔
        env.ScattersInside iovsPtr iovsLen (WasiEnv.fileSource host) [nreadPtr])) ∧
    (∀ fd riDataPtr riDataLen roDatalenPtr roFlagsPtr : Int32, env.socketState.sockets fd = true →
      ListStands env riDataPtr riDataLen →
      (ReadsStream env false riDataPtr riDataLen roDatalenPtr [roFlagsPtr] (WasiEnv.recvSource host)
          (env.sockRecv host true fd riDataPtr riDataLen roDatalenPtr roFlagsPtr) ↔
        env.ScattersInside riDataPtr riDataLen (WasiEnv.recvSource host) [roDatalenPtr, roFlagsPtr] ∧
          Unspoiled env riDataPtr riDataLen (WasiEnv.recvSource host))) := by
  refine ⟨?_, ?_, ?_, ?_, ?_⟩
  · intro networking fd iovsPtr iovsLen nwrittenPtr hfd
    rw [fdWrite_of_writable hfd, writesStream_gather_iff (relays_streamSink host)]
    refine and_congr_right fun _ => forall₂_congr fun mem _ => ?_
    constructor
    · intro h
      exact h.2 not_returnsIn_streamSink
    · intro h
      exact ⟨fun hret => absurd hret not_returnsIn_streamSink, fun _ => h⟩
  · intro fd siDataPtr siDataLen soDatalenPtr hfd
    rw [sockSend_of_socket hfd]
    exact writesStream_gather_iff (relays_sendSink host)
  · intro iovsPtr iovsLen nreadPtr hstdin hlist
    rw [fdRead_of_stdin hstdin, readsStream_scatter_iff honest_stdinSource hlist]
    exact and_iff_left unspoiled_stdinSource
  · intro fd iovsPtr iovsLen nreadPtr hfd hopen hlist
    rw [fdRead_of_file hfd hopen, readsStream_scatter_iff (honest_fileSource host) hlist]
    exact and_iff_left unspoiled_fileSource
  · intro fd riDataPtr riDataLen roDatalenPtr roFlagsPtr hfd hlist
    rw [sockRecv_of_socket hfd]
    exact readsStream_scatter_iff (honest_recvSource host) hlist

/-! ### A stream that is torn -/

/-- Two buffers, of two bytes and of one, are listed at 0; they hold "abc". -/
def tornMemory : GuestMemory where
  bytes a := [16, 0, 0, 0, 2, 0, 0, 0, 18, 0, 0, 0, 1, 0, 0, 0, 0x61, 0x62, 0x63].getD a 0
  size := 65536
  size_le := page_le

/-- The guest has a file and a socket, and "hi" on its standard input. -/
def tornEnv : WasiEnv where
  memory := some tornMemory
  stdinBuffer := [0x68, 0x69]
  fsState := WasiFsState.insertFile (.new []) 3 ⟨[0x2f, 0x6f], openOptions 0⟩
  socketState := { WasiSocketState.new none with sockets := fun fd => fd == 1000 }

/-- The host takes one byte of the first buffer and all of the second, and gives in the same way. -/
def tornHost : WasiHost where
  clock := some 0
  random := quietHost.random
  write i data := .ok ⟨if i = 0 then min 1 data.length else data.length, by split <;> omega⟩
  read i len := .ok ⟨List.replicate (if i = 0 then min 1 len else len) 0x78, by
    rw [List.length_replicate]
    split <;> omega⟩
  prints _ _ := true
  seek _ := .ok 0
  streamPosition := .ok 0
  shutdown _ := .ok ()
  fileSystem _ := .ok ()
  network _ := .ok ()

/-- Two buffers are filled from the standard input. -/
theorem moves_streams_stdin :
    ReadsStream tornEnv true 0 2 32 [] WasiEnv.stdinSource (tornEnv.fdRead tornHost 0 0 2 32) := by
  have hlist : ListStands tornEnv 0 2 := by
    rintro mem hmem
    obtain rfl := Option.some.inj hmem
    decide +kernel
  exact ((moves_streams_iff tornEnv tornHost).2.2.1 0 2 32 (by decide) hlist).mpr
    (WasiEnv.scatter_returns_iff.mp (by decide +kernel))

/-- The first of two buffers of one byte is where the list says where the second one is. -/
def coveredMemory : GuestMemory where
  bytes a := [8, 0, 0, 0, 1, 0, 0, 0, 18, 0, 0, 0, 1, 0, 0, 0].getD a 0
  size := 65536
  size_le := page_le

def coveredEnv : WasiEnv := { tornEnv with memory := some coveredMemory }

/-- The file gets "ac", and so would the socket; what comes from it leaves a hole in the first buffer.  The byte 'h' of
standard input, put where the list is, moves the buffer of the other byte from 18 to 0x68. -/
theorem streams_torn :
    ¬WritesStream tornEnv tornHost 0 2 32 (tornEnv.fdWrite tornHost false 3 0 2 32) ∧
      ¬WritesStream tornEnv tornHost 0 2 32 (tornEnv.sockSend tornHost true 1000 0 2 32) ∧
        ¬ReadsStream tornEnv false 0 2 32 [36] (WasiEnv.recvSource tornHost)
          (tornEnv.sockRecv tornHost true 1000 0 2 32 36) ∧
          ¬ReadsStream coveredEnv true 0 2 32 [] WasiEnv.stdinSource (coveredEnv.fdRead tornHost 0 0 2 32) := by
  have hsent : sent tornMemory (asU64 0) tornHost.write (asU64 2) 0 = [0x61, 0x63] := by decide +kernel
  have hcontents : contents tornMemory (asU64 0) (asU64 2) 0 = [0x61, 0x62, 0x63] := by decide +kernel
  have hwrites : ∀ answer, ¬WritesStream tornEnv tornHost 0 2 32 answer := by
    rintro answer ⟨mem, hmem, h⟩
    obtain rfl := Option.some.inj hmem
    rw [hsent, hcontents] at h
    rcases h with ⟨hfront, -⟩ | ⟨hnone, -⟩
    · exact absurd hfront (by decide)
    · simp at hnone
  refine ⟨hwrites _, hwrites _, ?_, ?_⟩
  · rintro ⟨mem, hmem, h⟩
    obtain rfl := Option.some.inj hmem
    have hgot : deliveredIn tornEnv 0 2 (WasiEnv.recvSource tornHost) tornMemory =
        [(⟨16, 2⟩, [0x78]), (⟨18, 1⟩, [0x78])] := by rfl
    have hbuffers : tornMemory.buffersAt (asU64 0) (asU64 2) 0 = [⟨16, 2⟩, ⟨18, 1⟩] := by rfl
    rw [hgot, hbuffers] at h
    rcases h with ⟨hfill, -⟩ | ⟨hnone, -⟩
    · exact absurd (congrArg (List.map Prod.snd) hfill) (by decide)
    · simp at hnone
  · rintro ⟨mem, hmem, h⟩
    obtain rfl := Option.some.inj hmem
    have hgot : deliveredIn coveredEnv 0 2 WasiEnv.stdinSource coveredMemory =
        [(⟨8, 1⟩, [0x68]), (⟨0x68, 1⟩, [0x69])] := by rfl
    have hbuffers : coveredMemory.buffersAt (asU64 0) (asU64 2) 0 = [⟨8, 1⟩, ⟨18, 1⟩] := by rfl
    rw [hgot, hbuffers] at h
    rcases h with ⟨hfill, -⟩ | ⟨hnone, -⟩
    · exact absurd (congrArg (List.map Prod.fst) hfill) (by decide)
    · simp at hnone

end Functions

end VelocityMcp.Wasm
