import VelocityMcp.Wasm.Streams

/-!
# Wasm.PollOneoff — how long `poll_oneoff` blocks, and for what (`wasm_runtime/wasi.rs`)

Sleeping takes the time that is asked for, and nothing else takes any.
-/

namespace VelocityMcp.Wasm

open Lib

/-! ## Subscriptions -/

/-- A `subscription` of WASI; the 48 bytes of one that the code does not know are not looked at. -/
inductive Subscription where
  | clock (userdata : Bytes) (id timeout flags : ℕ)
  | descriptor (userdata : Bytes) (tag : UInt8) (fd : Int32)
  | unknown

/-- An `event`, as far as the code writes it. -/
structure Event where
  userdata : Bytes
  tag : UInt8
  nbytes : ℕ

namespace Subscription

/-- The time for which the code sleeps: it takes the flag of absolute times for one of relative times. -/
def sleeps : Subscription → ℕ
  | clock _ _ timeout flags =>
    let isRelative := flags % 2 ≠ 0
    if isRelative ∧ 0 < timeout then timeout else 0
  | _ => 0

def event (isReady : Int32 → Bool) : Subscription → Option Event
  | clock userdata _ _ _ => some ⟨userdata, 0, 0⟩
  | descriptor userdata tag fd => some ⟨userdata, tag, if isReady fd then 1 else 0⟩
  | unknown => none

/-! ### What WASI says -/

/-- How long it is until the time of a clock subscription; `now` is what each clock shows at the call. -/
def deadline (now : ℕ → ℕ) (id timeout flags : ℕ) : ℕ := if flags % 2 = 1 then timeout - now id else timeout

/-- What has happened when the call has blocked for the time `t`. -/
def Satisfied (now : ℕ → ℕ) (isReady : Int32 → Bool) (t : ℕ) : Subscription → Prop
  | clock _ id timeout flags => deadline now id timeout flags ≤ t
  | descriptor _ _ fd => isReady fd = true
  | unknown => False

instance (now : ℕ → ℕ) (isReady : Int32 → Bool) (t : ℕ) : DecidablePred (Satisfied now isReady t)
  | clock _ _ _ _ => inferInstanceAs (Decidable (_ ≤ _))
  | descriptor _ _ _ => inferInstanceAs (Decidable (_ = _))
  | unknown => inferInstanceAs (Decidable False)

/-- The call waits for all of the subscriptions at once: not at all if a descriptor is ready, and otherwise until the
first time that a clock reaches. -/
def WaitsJointly (now : ℕ → ℕ) (isReady : Int32 → Bool) (subs : List Subscription) (t : ℕ) : Prop :=
  ((∃ u k d, descriptor u k d ∈ subs ∧ isReady d = true) → t = 0) ∧
  ((¬∃ u k d, descriptor u k d ∈ subs ∧ isReady d = true) →
    (∀ u id timeout flags, clock u id timeout flags ∈ subs → t ≤ deadline now id timeout flags) ∧
    ((∃ u id timeout flags, clock u id timeout flags ∈ subs) →
      ∃ u id timeout flags, clock u id timeout flags ∈ subs ∧ deadline now id timeout flags = t))

/-! ### When the code does that -/

/-- Nothing has to be waited for: no clock has a time, and all descriptors are ready. -/
def Immediate (isReady : Int32 → Bool) : Subscription → Prop
  | clock _ _ timeout _ => timeout = 0
  | descriptor _ _ fd => isReady fd = true
  | unknown => True

/-- Only clocks are waited for, all of them until the same time, which is the sum of the times that carry the flag. -/
def Coincident (now : ℕ → ℕ) (subs : List Subscription) : Prop :=
  (∀ u k d, descriptor u k d ∉ subs) ∧
    ∀ u id timeout flags, clock u id timeout flags ∈ subs → deadline now id timeout flags = (subs.map sleeps).sum

variable {now : ℕ → ℕ} {isReady : Int32 → Bool} {subs : List Subscription}

theorem sleeps_eq_zero {u : Bytes} {id timeout flags : ℕ} (h : (clock u id timeout flags).sleeps = 0)
    (hdue : deadline now id timeout flags = 0) : timeout = 0 := by
  simp only [sleeps, deadline] at h hdue
  by_cases hflag : flags % 2 = 1
  · by_contra htime
    rw [if_pos ⟨by omega, by omega⟩] at h
    exact htime h
  · rwa [if_neg hflag] at hdue

theorem sleeps_of_immediate {sub : Subscription} (h : sub.Immediate isReady) : sub.sleeps = 0 := by
  cases sub with
  | clock u id timeout flags =>
    have htime : timeout = 0 := h
    simp [sleeps, htime]
  | descriptor u k d => rfl
  | unknown => rfl

/-- **What the code does is what WASI says** if nothing has to be waited for, or by coincidence. -/
theorem joint_iff : (WaitsJointly now isReady subs (subs.map sleeps).sum ∧
      ∀ sub ∈ subs, sub ≠ unknown → sub.Satisfied now isReady (subs.map sleeps).sum) ↔
    (∀ sub ∈ subs, sub.Immediate isReady) ∨ Coincident now subs := by
  constructor
  · rintro ⟨hjoint, hall⟩
    -- a descriptor has its event only if it is ready, and then nothing may be slept
    by_cases hfd : ∃ u k d, descriptor u k d ∈ subs
    · left
      obtain ⟨u, k, d, hmem⟩ := hfd
      have hready : isReady d = true := hall _ hmem (by simp)
      have hzero := hjoint.1 ⟨u, k, d, hmem, hready⟩
      intro sub hsub
      cases sub with
      | clock u id timeout flags =>
        have hsleeps : (clock u id timeout flags).sleeps = 0 :=
          List.sum_eq_zero_iff_forall_eq_nat.mp hzero _ (List.mem_map_of_mem hsub)
        have hdue : deadline now id timeout flags ≤ (subs.map sleeps).sum := hall _ hsub (by simp)
        rw [hzero] at hdue
        exact sleeps_eq_zero hsleeps (Nat.le_zero.mp hdue)
      | descriptor u k d => exact hall _ hsub (by simp)
      | unknown => trivial
    · right
      -- all clocks have events, so all are due by what is slept, and the first of them not before
      have hnone : ∀ u k d, descriptor u k d ∉ subs := fun u k d h => hfd ⟨u, k, d, h⟩
      have hfirst := (hjoint.2 fun ⟨u, k, d, h, _⟩ => hnone u k d h).1
      refine ⟨hnone, fun u id timeout flags h => le_antisymm ?_ (hfirst u id timeout flags h)⟩
      exact hall _ h (by simp)
  · rintro (himmediate | ⟨hnone, hdue⟩)
    · have hsum : (subs.map sleeps).sum = 0 := by
        apply List.sum_eq_zero_iff_forall_eq_nat.mpr
        intro n hn
        obtain ⟨sub, hsub, rfl⟩ := List.mem_map.mp hn
        exact sleeps_of_immediate (himmediate sub hsub)
      have hdeadline : ∀ u id timeout flags, clock u id timeout flags ∈ subs → deadline now id timeout flags = 0 := by
        intro u id timeout flags h
        have htime : timeout = 0 := himmediate _ h
        simp [deadline, htime]
      rw [hsum]
      refine ⟨?_, ?_⟩
      · refine ⟨fun _ => rfl, fun _ => ⟨fun u id timeout flags _ => Nat.zero_le _, ?_⟩⟩
        rintro ⟨u, id, timeout, flags, h⟩
        exact ⟨u, id, timeout, flags, h, hdeadline u id timeout flags h⟩
      · intro sub hsub hknown
        cases sub with
        | clock u id timeout flags => exact (hdeadline u id timeout flags hsub).le
        | descriptor u k d => exact himmediate _ hsub
        | unknown => exact absurd rfl hknown
    · refine ⟨?_, ?_⟩
      · refine ⟨fun ⟨u, k, d, h, _⟩ => absurd h (hnone u k d), fun _ => ⟨?_, ?_⟩⟩
        · exact fun u id timeout flags h => (hdue u id timeout flags h).ge
        · rintro ⟨u, id, timeout, flags, h⟩
          exact ⟨u, id, timeout, flags, h, hdue u id timeout flags h⟩
      · intro sub hsub hknown
        cases sub with
        | clock u id timeout flags => exact (hdue u id timeout flags hsub).le
        | descriptor u k d => exact absurd hsub (hnone u k d)
        | unknown => exact absurd rfl hknown

end Subscription

/-! ## The loop -/

section Loop

variable (inPtr outPtr : ℕ) (isReady : Int32 → Bool)

def subscriptionAt (mem : GuestMemory) (i : ℕ) : Subscription :=
  let base := inPtr + i * 48
  let userdata := mem.bytesAt base 8
  let tag := (mem.bytesAt (base + 8) 1).headD 0
  if tag = 0 then
    .clock userdata (leNat (mem.bytesAt (base + 16) 4)) (leNat (mem.bytesAt (base + 24) 8))
      (leNat (mem.bytesAt (base + 40) 2))
  else if tag = 1 ∨ tag = 2 then .descriptor userdata tag (Int32.ofNat (leNat (mem.bytesAt (base + 16) 4)))
  else .unknown

/-- The writes of events, from the number `k` on. -/
def eventsAt : ℕ → List Event → List (ℕ × Bytes)
  | _, [] => []
  | k, e :: es => eventWrites (outPtr + k * 32) e.userdata e.tag e.nbytes ++ eventsAt (k + 1) es

/-- The subscriptions, as the turns from `i` on find them. -/
def found : ℕ → ℕ → Polling → List Subscription
  | 0, _, _ => []
  | n + 1, i, s => subscriptionAt inPtr s.memory i :: found n (i + 1) (polled inPtr outPtr isReady i s).state

/-- No event overlaps a subscription that comes after the one with its number, and so none that is still to be read. -/
def EventsApart (n : ℕ) : Prop :=
  ∀ k < n, outPtr + k * 32 + 26 ≤ inPtr + (k + 1) * 48 ∨ inPtr + n * 48 ≤ outPtr + k * 32

instance (n : ℕ) : Decidable (EventsApart inPtr outPtr n) := inferInstanceAs (Decidable (∀ k < n, _))

variable {inPtr outPtr isReady} {n i : ℕ} {s : Polling}

theorem polled_eq : polled inPtr outPtr isReady i s =
    match (subscriptionAt inPtr s.memory i).event isReady with
    | some e => .next
      { memory := s.memory.fillAll (eventWrites (outPtr + s.eventCount * 32) e.userdata e.tag e.nbytes)
        eventCount := s.eventCount + 1 }
    | none => .next s := by
  unfold polled subscriptionAt
  have htag : (s.memory.bytesAt (inPtr + i * 48 + 8) 1).headD 0 = tagAt inPtr i s := rfl
  simp only [htag]
  by_cases hclock : tagAt inPtr i s = 0
  · simp only [if_pos hclock, Subscription.event]
  · by_cases hfd : tagAt inPtr i s = 1 ∨ tagAt inPtr i s = 2
    · simp only [if_neg hclock, if_pos hfd, Subscription.event]
    · simp only [if_neg hclock, if_neg hfd, Subscription.event]

theorem ending_polled : ending (polled inPtr outPtr isReady) n i s =
    let events := (found inPtr outPtr isReady n i s).filterMap (Subscription.event isReady)
    .next { memory := s.memory.fillAll (eventsAt outPtr s.eventCount events)
            eventCount := s.eventCount + events.length } := by
  induction n generalizing i s with
  | zero => rfl
  | succ n ih =>
    rw [ending, found, polled_eq]
    cases hevent : (subscriptionAt inPtr s.memory i).event isReady with
    | none =>
      rw [List.filterMap_cons_none hevent]
      exact ih
    | some e =>
      rw [List.filterMap_cons_some hevent]
      refine ih.trans ?_
      dsimp only [Turn.state]
      rw [eventsAt, fillAll_append, List.length_cons, Nat.add_right_comm s.eventCount, Nat.add_assoc s.eventCount]

theorem eventCount_lt (hcount : s.eventCount < 2 ^ 32)
    (h : AllTurns (polled inPtr outPtr isReady) (PollOk inPtr outPtr) n i s) :
    s.eventCount + ((found inPtr outPtr isReady n i s).filterMap (Subscription.event isReady)).length <
      2 ^ 32 := by
  induction n generalizing i s with
  | zero => exact hcount
  | succ n ih =>
    obtain ⟨hok, hrest⟩ := allTurns_succ.mp h
    have hturn := @polled_eq inPtr outPtr isReady i s
    rw [found]
    cases hevent : (subscriptionAt inPtr s.memory i).event isReady with
    | none =>
      rw [hevent] at hturn
      rw [List.filterMap_cons_none hevent, hturn]
      exact ih hcount (hrest s hturn)
    | some e =>
      have hroom : s.memory.Within (outPtr + s.eventCount * 32) 26 := by
        apply hok.event
        have htag : (s.memory.bytesAt (inPtr + i * 48 + 8) 1).headD 0 = tagAt inPtr i s := rfl
        by_contra hother
        obtain ⟨h₀, h₁₂⟩ := not_or.mp hother
        have hunknown : subscriptionAt inPtr s.memory i = .unknown := by
          unfold subscriptionAt
          simp only [htag, if_neg h₀, if_neg h₁₂]
        rw [hunknown] at hevent
        simp [Subscription.event] at hevent
      have hsize := s.memory.size_le
      unfold GuestMemory.Within at hroom
      rw [hevent] at hturn
      rw [List.filterMap_cons_some hevent, List.length_cons, hturn]
      have hrest := ih (by dsimp only; omega) (hrest _ hturn)
      dsimp only [Turn.state] at hrest ⊢
      omega

theorem length_userdata {mem : GuestMemory} {e : Event} (h : (subscriptionAt inPtr mem i).event isReady = some e) :
    e.userdata.length = 8 := by
  unfold subscriptionAt at h
  dsimp only at h
  split_ifs at h
  · obtain rfl := Option.some.inj h
    exact GuestMemory.length_bytesAt
  · obtain rfl := Option.some.inj h
    exact GuestMemory.length_bytesAt
  · simp [Subscription.event] at h

theorem subscriptionAt_congr {mem mem' : GuestMemory}
    (h : ∀ {offset len}, inPtr + i * 48 ≤ offset → offset + len ≤ inPtr + i * 48 + 48 →
      mem.bytesAt offset len = mem'.bytesAt offset len) :
    subscriptionAt inPtr mem i = subscriptionAt inPtr mem' i := by
  unfold subscriptionAt
  dsimp only
  rw [@h _ 8 le_rfl (by omega), @h (_ + 8) 1 (by omega) (by omega), @h (_ + 16) 4 (by omega) (by omega),
    @h (_ + 24) 8 (by omega) (by omega), @h (_ + 40) 2 (by omega) (by omega)]

/-- A turn leaves the subscriptions that come later as they are. -/
theorem subscriptionAt_polled {total j : ℕ} (hapart : EventsApart inPtr outPtr total) (hcount : s.eventCount ≤ i)
    (hij : i < j) (hj : j < total) :
    subscriptionAt inPtr (polled inPtr outPtr isReady i s).state.memory j = subscriptionAt inPtr s.memory j := by
  rw [polled_eq]
  cases hevent : (subscriptionAt inPtr s.memory i).event isReady with
  | none => rfl
  | some e =>
    refine subscriptionAt_congr fun {offset len} hfrom hto => GuestMemory.bytesAt_fillAll ?_
    have hevents := hapart s.eventCount (by omega)
    simp only [eventWrites, List.forall_mem_cons, length_userdata hevent, length_leBytes, List.length_singleton]
    exact ⟨by omega, by omega, by omega, by omega, by omega, List.forall_mem_nil _⟩

theorem eventCount_polled : (polled inPtr outPtr isReady i s).state.eventCount ≤ s.eventCount + 1 := by
  rw [polled_eq]
  cases (subscriptionAt inPtr s.memory i).event isReady with
  | none => exact Nat.le_succ _
  | some e => exact le_rfl

/-- **The loop finds the guest's own list.** -/
theorem found_eq {mem : GuestMemory} {total : ℕ} (hapart : EventsApart inPtr outPtr total) (hcount : s.eventCount ≤ i)
    (htotal : i + n = total)
    (hsame : ∀ j, i ≤ j → j < total → subscriptionAt inPtr s.memory j = subscriptionAt inPtr mem j) :
    found inPtr outPtr isReady n i s = (List.range' i n).map (subscriptionAt inPtr mem) := by
  induction n generalizing i s with
  | zero => rfl
  | succ n ih =>
    rw [found, List.range'_succ, List.map_cons, hsame i le_rfl (by omega)]
    refine congrArg _ (ih ?_ (by omega) fun j hij hj => ?_)
    · have := @eventCount_polled inPtr outPtr isReady i s
      omega
    · exact (subscriptionAt_polled hapart hcount hij hj).trans (hsame j (by omega) hj)

end Loop

/-! ## The call -/

section Call

variable (env : WasiEnv) (networking : Bool) (now : ℕ → ℕ) (inPtr outPtr nsubscriptions neventsPtr : Int32)

/-- The guest's list at the call. -/
def subscriptionsOf (mem : GuestMemory) : List Subscription :=
  (List.range' 0 (asU64 nsubscriptions)).map (subscriptionAt (asU64 inPtr) mem)

def foundOf (mem : GuestMemory) : List Subscription :=
  found (asU64 inPtr) (asU64 outPtr) (env.isReady networking) (asU64 nsubscriptions) 0 ⟨mem, 0⟩

/-- The call blocks as WASI says of the guest's list, and writes one event for each subscription of it that is
satisfied then, in their order, and the number of these events. -/
def PollsJointly (answer : Answer) : Prop :=
  ∃ mem, env.memory = some mem ∧
    let subs := subscriptionsOf inPtr nsubscriptions mem
    let blocked := ((foundOf env networking inPtr outPtr nsubscriptions mem).map Subscription.sleeps).sum
    let events := (subs.filter (Subscription.Satisfied now (env.isReady networking) blocked)).filterMap
      (Subscription.event (env.isReady networking))
    Subscription.WaitsJointly now (env.isReady networking) subs blocked ∧ events.length < 2 ^ 32 ∧
      answer = some (env.withMemory ((mem.fillAll (eventsAt (asU64 outPtr) 0 events)).fill (asU64 neventsPtr)
        (leBytes 4 events.length)), 0)

variable {env networking now inPtr outPtr nsubscriptions neventsPtr}

theorem pollOneoff_of_inside (h : env.PollsInside networking inPtr outPtr nsubscriptions neventsPtr)
    {mem : GuestMemory} (hmem : env.memory = some mem) :
    let events := (foundOf env networking inPtr outPtr nsubscriptions mem).filterMap
      (Subscription.event (env.isReady networking))
    events.length < 2 ^ 32 ∧ env.pollOneoff networking inPtr outPtr nsubscriptions neventsPtr =
      some (env.withMemory ((mem.fillAll (eventsAt (asU64 outPtr) 0 events)).fill (asU64 neventsPtr)
        (leBytes 4 events.length)), 0) := by
  obtain ⟨mem', hmem', hall, mem'', hmem'', hin⟩ := h
  obtain rfl := Option.some.inj (hmem'.symm.trans hmem)
  obtain rfl := Option.some.inj (hmem''.symm.trans hmem)
  have hcount := eventCount_lt (by norm_num) hall
  rw [Nat.zero_add] at hcount
  refine ⟨hcount, ?_⟩
  have hloop := forRange_eq_ending (checks_pollTurn (asU64 inPtr) (asU64 outPtr) (env.isReady networking)) hall
  have hafter : ∀ s : Polling, s.memory.size = mem''.size → env.afterPoll neventsPtr s =
      some (env.withMemory (s.memory.fill (asU64 neventsPtr) (leBytes 4 s.eventCount)), 0) := by
    intro s hsize
    have hmem : (env.withMemory s.memory).memory = some s.memory := rfl
    refine store_of_within hmem ?_
    rw [List.forall_mem_singleton, length_leBytes]
    have hsmall := hin (neventsPtr, 4) List.mem_cons_self
    unfold GuestMemory.Within at hsmall ⊢
    rwa [hsize]
  rw [WasiEnv.pollOneoff, hmem, Option.bind_eq_bind, Option.bind_some, hloop, ending_polled]
  dsimp only [Turn.state]
  rw [Nat.zero_add]
  exact hafter _ GuestMemory.size_fillAll

theorem bytesAt_fill (m : GuestMemory) (offset : ℕ) (data : Bytes) :
    (m.fill offset data).bytesAt offset data.length = data := by
  have hholds := holds_storesAt m.bytes offset data
  apply List.ext_getElem
  · exact GuestMemory.length_bytesAt
  · intro k h₁ h₂
    simp only [GuestMemory.bytesAt, List.getElem_map, List.getElem_range]
    exact hholds k h₂

theorem isSome_event {isReady : Int32 → Bool} {sub : Subscription} :
    (sub.event isReady).isSome = true ↔ sub ≠ .unknown := by
  cases sub with
  | clock u id timeout flags => exact iff_of_true rfl (by simp)
  | descriptor u k d => exact iff_of_true rfl (by simp)
  | unknown => exact iff_of_false (by simp [Subscription.event]) (by simp)

theorem satisfied_known {isReady : Int32 → Bool} {t : ℕ} {sub : Subscription}
    (h : sub.Satisfied now isReady t) : sub ≠ .unknown := by
  rintro rfl
  exact h

/-- The code writes the events of all known subscriptions; they are those of the satisfied ones if all of them are. -/
theorem length_events_eq_iff {isReady : Int32 → Bool} {t : ℕ} {subs : List Subscription} :
    (subs.filterMap (Subscription.event isReady)).length =
        ((subs.filter (Subscription.Satisfied now isReady t)).filterMap (Subscription.event isReady)).length ↔
      ∀ sub ∈ subs, sub ≠ .unknown → sub.Satisfied now isReady t := by
  induction subs with
  | nil => simp
  | cons sub subs ih =>
    have hle : ((subs.filter (Subscription.Satisfied now isReady t)).filterMap (Subscription.event isReady)).length ≤
        (subs.filterMap (Subscription.event isReady)).length :=
      (List.filter_sublist.filterMap _).length_le
    rw [List.forall_mem_cons, ← ih, List.filter_cons]
    cases hevent : sub.event isReady with
    | none =>
      have hunknown : sub = .unknown := by
        by_contra hknown
        have hsome : (sub.event isReady).isSome = true := isSome_event.mpr hknown
        rw [hevent] at hsome
        exact nomatch hsome
      have hno : ¬sub.Satisfied now isReady t := fun h => satisfied_known h hunknown
      rw [List.filterMap_cons_none hevent, if_neg (by simpa using hno)]
      exact ⟨fun h => ⟨fun hknown => absurd hunknown hknown, h⟩, fun h => h.2⟩
    | some e =>
      have hknown : sub ≠ .unknown := isSome_event.mp (Option.isSome_of_mem hevent)
      rw [List.filterMap_cons_some hevent, List.length_cons]
      by_cases hsat : sub.Satisfied now isReady t
      · rw [if_pos (by simpa using hsat), List.filterMap_cons_some hevent, List.length_cons]
        exact ⟨fun h => ⟨fun _ => hsat, by omega⟩, fun h => by omega⟩
      · rw [if_neg (by simpa using hsat)]
        exact ⟨fun h => by omega, fun h => absurd (h.1 hknown) hsat⟩

/-- **`poll_oneoff` waits as WASI says**, where no event overlaps a later subscription, exactly if everything lies in
the memory and either nothing has to be waited for, or only clocks, in such a way that what is slept happens to be
right. -/
theorem pollOneoff_joint_iff (env : WasiEnv) (networking : Bool) (now : ℕ → ℕ)
    (inPtr outPtr nsubscriptions neventsPtr : Int32)
    (hapart : EventsApart (asU64 inPtr) (asU64 outPtr) (asU64 nsubscriptions)) :
    PollsJointly env networking now inPtr outPtr nsubscriptions neventsPtr
        (env.pollOneoff networking inPtr outPtr nsubscriptions neventsPtr) ↔
      env.PollsInside networking inPtr outPtr nsubscriptions neventsPtr ∧
        ∀ mem, env.memory = some mem →
          let subs := subscriptionsOf inPtr nsubscriptions mem
          (∀ sub ∈ subs, sub.Immediate (env.isReady networking)) ∨ Subscription.Coincident now subs := by
  have hfound : ∀ mem, foundOf env networking inPtr outPtr nsubscriptions mem =
      subscriptionsOf inPtr nsubscriptions mem := fun mem =>
    found_eq hapart le_rfl (Nat.zero_add _) fun _ _ _ => rfl
  constructor
  · rintro ⟨mem, hmem, h⟩
    rw [hfound] at h
    obtain ⟨hjoint, hcount, hanswer⟩ := h
    have hinside : env.PollsInside networking inPtr outPtr nsubscriptions neventsPtr := by
      rw [← WasiEnv.pollOneoff_returns_iff, hanswer]
      rfl
    refine ⟨hinside, ?_⟩
    intro mem' hmem'
    obtain rfl := Option.some.inj (hmem'.symm.trans hmem)
    obtain ⟨hcount', hanswer'⟩ := pollOneoff_of_inside hinside hmem
    rw [hfound] at hcount' hanswer'
    have hmemory := congrArg (fun r => r.1.memory) (Option.some.inj (hanswer'.symm.trans hanswer))
    have hwritten := congrArg (GuestMemory.bytesAt · (asU64 neventsPtr) 4) (Option.some.inj hmemory)
    have hread : ∀ (m : GuestMemory) (k : ℕ), (m.fill (asU64 neventsPtr) (leBytes 4 k)).bytesAt (asU64 neventsPtr) 4 =
        leBytes 4 k := by
      intro m k
      have hfill := bytesAt_fill m (asU64 neventsPtr) (leBytes 4 k)
      rwa [length_leBytes] at hfill
    -- the count that is written is the number of events
    have hlength := congrArg leNat ((hread _ _).symm.trans (hwritten.trans (hread _ _)))
    rw [leNat_leBytes, leNat_leBytes, show 256 ^ 4 = 2 ^ 32 by norm_num, Nat.mod_eq_of_lt hcount',
      Nat.mod_eq_of_lt hcount] at hlength
    exact Subscription.joint_iff.mp ⟨hjoint, length_events_eq_iff.mp hlength⟩
  · rintro ⟨hinside, hdue⟩
    obtain ⟨mem, hmem, -⟩ := id hinside
    obtain ⟨hjoint, hall⟩ := Subscription.joint_iff.mpr (hdue mem hmem)
    obtain ⟨hcount, hanswer⟩ := pollOneoff_of_inside hinside hmem
    rw [hfound] at hcount hanswer
    refine ⟨mem, hmem, ?_⟩
    dsimp only
    rw [hfound]
    refine ⟨hjoint, ?_⟩
    have hevents : ((subscriptionsOf inPtr nsubscriptions mem).filter
        (Subscription.Satisfied now (env.isReady networking)
          ((subscriptionsOf inPtr nsubscriptions mem).map Subscription.sleeps).sum)).filterMap
        (Subscription.event (env.isReady networking)) =
          (subscriptionsOf inPtr nsubscriptions mem).filterMap (Subscription.event (env.isReady networking)) :=
      (List.filter_sublist.filterMap _).eq_of_length (length_events_eq_iff.mpr hall).symm
    rw [hevents]
    exact ⟨hcount, hanswer⟩

/-! ### One clock -/

def oneClock (timeout flags : ℕ) : WasiEnv where
  memory := some
    { bytes := fun a => (List.replicate 24 0 ++ leBytes 8 timeout ++ List.replicate 8 0 ++ leBytes 2 flags).getD a 0
      size := 65536
      size_le := page_le }
  stdinBuffer := []
  fsState := .new []
  socketState := .new none

theorem subscriptionsOf_oneClock (timeout flags : ℕ) {mem : GuestMemory}
    (hmem : (oneClock timeout flags).memory = some mem) :
    subscriptionsOf 0 1 mem =
      [.clock (List.replicate 8 0) 0 (leNat (leBytes 8 timeout)) (leNat (leBytes 2 flags))] := by
  obtain rfl := Option.some.inj hmem
  rfl

theorem foundOf_oneClock (timeout flags : ℕ) {mem : GuestMemory}
    (hmem : (oneClock timeout flags).memory = some mem) :
    foundOf (oneClock timeout flags) false 0 64 1 mem = subscriptionsOf 0 1 mem := by
  obtain rfl := Option.some.inj hmem
  rfl

/-- A clock that is over. -/
theorem pollOneoff_joint_over :
    PollsJointly (oneClock 0 0) false (fun _ => 1700000000000000000) 0 64 1 128
      ((oneClock 0 0).pollOneoff false 0 64 1 128) := by
  refine (pollOneoff_joint_iff (oneClock 0 0) false (fun _ => 1700000000000000000) 0 64 1 128 (by decide)).mpr
    ⟨WasiEnv.pollOneoff_returns_iff.mp (by decide +kernel), fun mem hmem => Or.inl ?_⟩
  rw [subscriptionsOf_oneClock 0 0 hmem]
  intro sub hsub
  rw [List.mem_singleton.mp hsub]
  exact leNat_leBytes 8 0

/-- Two clocks that are due at once, with the user data 1 and 2. -/
def twoClocks : WasiEnv where
  memory := some
    { bytes := fun a => if a = 0 then 1 else if a = 48 then 2 else 0
      size := 65536
      size_le := page_le }
  stdinBuffer := []
  fsState := .new []
  socketState := .new none

/-- A relative time of a millisecond is not waited for; an absolute one, a nanosecond from now, is slept for as many
years as have passed since 1970.  The first event, written over the second subscription, gives it the user data of the
first. -/
theorem clocks_inverted :
    let now : ℕ → ℕ := fun _ => 1700000000000000000
    ¬PollsJointly (oneClock 1000000 0) false now 0 64 1 128 ((oneClock 1000000 0).pollOneoff false 0 64 1 128) ∧
      ¬PollsJointly (oneClock 1700000000000000001 1) false now 0 64 1 128
        ((oneClock 1700000000000000001 1).pollOneoff false 0 64 1 128) ∧
        ¬PollsJointly twoClocks false now 0 48 2 128 (twoClocks.pollOneoff false 0 48 2 128) := by
  intro now
  have hnone : ∀ {sub : Subscription} {u k d}, (∃ v i t f, sub = .clock v i t f) → .descriptor u k d ∉ [sub] := by
    rintro sub u k d ⟨v, i, t, f, rfl⟩ h
    simp at h
  refine ⟨?_, ?_, ?_⟩
  · rintro ⟨mem, hmem, hjoint, -⟩
    rw [foundOf_oneClock _ _ hmem, subscriptionsOf_oneClock _ _ hmem, leNat_leBytes, leNat_leBytes] at hjoint
    have hwaits := hjoint.2 fun ⟨u, k, d, h, _⟩ => hnone ⟨_, _, _, _, rfl⟩ h
    obtain ⟨u, id, timeout, flags, h, hdue⟩ := hwaits.2 ⟨_, _, _, _, List.mem_singleton_self _⟩
    obtain ⟨-, rfl, rfl, rfl⟩ := Subscription.clock.inj (List.mem_singleton.mp h)
    exact absurd hdue (by decide)
  · rintro ⟨mem, hmem, hjoint, -⟩
    rw [foundOf_oneClock _ _ hmem, subscriptionsOf_oneClock _ _ hmem, leNat_leBytes, leNat_leBytes] at hjoint
    have hwaits := hjoint.2 fun ⟨u, k, d, h, _⟩ => hnone ⟨_, _, _, _, rfl⟩ h
    exact absurd (hwaits.1 _ _ _ _ (List.mem_singleton_self _)) (by decide)
  · rintro ⟨mem, hmem, -, -, hanswer⟩
    obtain rfl := Option.some.inj hmem
    -- the first byte of the second event
    have hbyte := congrArg (fun a : Answer => (a.bind (·.1.memory)).map (·.bytes 80)) hanswer
    exact absurd hbyte (by decide +kernel)

end Call

end VelocityMcp.Wasm
