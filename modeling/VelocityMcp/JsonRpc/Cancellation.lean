import Mathlib.Data.Finset.Card
import Mathlib.Data.Finset.Insert
import VelocityMcp.JsonRpc.Dispatch
import VelocityMcp.JsonRpc.IdKeys
import VelocityMcp.Lib.Machine

/-!
# JsonRpc.Cancellation — requests that are cancelled (`CANCELLED_IDS` of `json_rpc.rs`)

`exact_of_reachable`: when the calls that are answered as cancelled are those whose cancellation arrived in time.
-/

namespace VelocityMcp.JsonRpc

open Lib

variable {d : Display}

/-! ## The set of cancelled keys -/

def maxCancelledIds : ℕ := 1024

/-- The set of cancelled keys is asked. -/
def isCancelled (d : Display) (session : Option SessionId) (ids : Finset String) (id : Value) : Bool :=
  cancellationKey d session id ∈ ids

def addCancelled (d : Display) (session : Option SessionId) (ids : Finset String) (id : Value) : Finset String :=
  insert (cancellationKey d session id) (if ids.card ≥ maxCancelledIds then ∅ else ids)

def removeCancelled (d : Display) (session : Option SessionId) (ids : Finset String) (id : Value) :
    Finset String :=
  ids.erase (cancellationKey d session id)

def requestId (notification : Value) : Value := (notification.index "params").index "requestId"

def notificationsCancelled (d : Display) (session : Option SessionId) (ids : Finset String)
    (notification : Value) : Finset String :=
  if requestId notification ≠ .null then addCancelled d session ids (requestId notification) else ids

theorem mem_addCancelled {session : Option SessionId} {ids : Finset String} {id : Value} {key : String} :
    key ∈ addCancelled d session ids id ↔
      key = cancellationKey d session id ∨ (ids.card < maxCancelledIds ∧ key ∈ ids) := by
  rw [addCancelled, Finset.mem_insert]
  by_cases h : ids.card ≥ maxCancelledIds
  · simp [if_pos h, show ¬ ids.card < maxCancelledIds by omega]
  · simp [if_neg h, show ids.card < maxCancelledIds by omega]

/-! ## Isolation -/

inductive JsonType where
  | null
  | boolean
  | number
  | string
  | array
  | object
deriving DecidableEq

def jsonType : Value → JsonType
  | .null => .null
  | .bool _ => .boolean
  | .number _ => .number
  | .string _ => .string
  | .array _ => .array
  | .object _ => .object

/-- What is cancelled in the session `s` under the id `i` and a call in `s'` with the id `j` have nothing to do with
each other, unless they are in one session and have one id. -/
structure Isolated (d : Display) (s : Option SessionId) (i : Value) (s' : Option SessionId) (j : Value) : Prop where
  cancels : ∀ notification ids, requestId notification = i → ¬ isCancelled d s' ids j →
    isCancelled d s' (notificationsCancelled d s ids notification) j → s = s' ∧ i = j
  keys : cancellationKey d s i = cancellationKey d s' j → s = s' ∧ jsonType i = jsonType j

theorem key_eq_of_cancels {s s' : Option SessionId} {j notification : Value} {ids : Finset String}
    (hbefore : ¬ isCancelled d s' ids j) (hafter : isCancelled d s' (notificationsCancelled d s ids notification) j) :
    cancellationKey d s (requestId notification) = cancellationKey d s' j := by
  rw [isCancelled, decide_eq_true_eq] at hbefore hafter
  unfold notificationsCancelled at hafter
  split_ifs at hafter with hnull
  · rcases mem_addCancelled.mp hafter with hkey | ⟨-, hmem⟩
    · exact hkey.symm
    · exact absurd hmem hbefore
  · exact absurd hafter hbefore

theorem jsonType_ne_of_spelledAlike {i j : Value} (h : SpelledAlike d i j) : jsonType i ≠ jsonType j := by
  have hprinted : ∀ {v t}, printed d v = some t → jsonType v ≠ .string := by
    intro v t h
    cases v with
    | string s => cases h
    | _ => exact JsonType.noConfusion
  rcases h with ⟨t, rfl, hj⟩ | ⟨t, rfl, hi⟩
  · exact (hprinted hj).symm
  · exact hprinted hi

/-- **Cancellation is isolated** but for the ids that clash: a string that is spelled as an id of another type, and
a string without a session that is spelled as a session with an id. -/
theorem isolated_iff {s s' : Option SessionId} {i j : Value} : Isolated d s i s' j ↔ ¬ Clash d s i s' j := by
  constructor
  · intro h hclash
    obtain ⟨rfl, htype⟩ := h.keys (cancellationKey_eq_iff.mpr (Or.inr hclash))
    have halike : SpelledAlike d i j := by
      cases s with
      | none => exact hclash
      | some sid => exact hclash.2
    exact jsonType_ne_of_spelledAlike halike htype
  · intro hclash
    have hkeys : cancellationKey d s i = cancellationKey d s' j → s = s' ∧ i = j := by
      intro hkey
      exact (cancellationKey_eq_iff.mp hkey).resolve_right hclash
    refine ⟨fun notification ids hid hbefore hafter => hkeys ?_, fun hkey => ?_⟩
    · rw [← hid]
      exact key_eq_of_cancels hbefore hafter
    · obtain ⟨hs, rfl⟩ := hkeys hkey
      exact ⟨hs, rfl⟩

/-- A number's bit pattern with a point is told from an integer. -/
def plainDisplay : Display where
  f64 bits := toString bits.toNat ++ "."
  printable c := c.isAlphanum
  f64_inj := by
    intro a b _ _ h
    have hlist := congrArg String.toList h
    rw [String.toList_append, String.toList_append, toList_toString_nat, toList_toString_nat] at hlist
    have hdigits := (List.append_inj' hlist rfl).1
    exact UInt64.toNat_inj.mp (toDigits_injective (by decide) (by decide) hdigits)
  f64_chars := by
    intro a _ c hc
    rw [String.toList_append, toList_toString_nat] at hc
    rcases List.mem_append.mp hc with hc | hc
    · exact Or.inl (isDigit_of_mem hc)
    · obtain rfl : c = '.' := by simpa using hc
      exact Or.inr (by decide)
  f64_real := by
    intro a _
    exact ⟨'.', by simp, by decide⟩

def sessionA : SessionId := ⟨"session-A", rfl⟩

/-- To cancel the request `"42"` cancels the request `42`. -/
theorem string_cancels_number :
    ¬ Isolated plainDisplay (some sessionA) (.string "42") (some sessionA) (.number (.posInt 42)) := by
  intro h
  have heq := h.cancels (.object [("params", .object [("requestId", .string "42")])]) ∅ rfl (by decide) (by decide)
  cases heq.2

/-! ## Calls and cancellations over time -/

structure CallId where
  session : Option SessionId
  id : Value

namespace CallId

def key (d : Display) (c : CallId) : String := cancellationKey d c.session c.id

/-- The calls that a notification in a session is about. -/
def ofNotification (session : Option SessionId) (notification : Value) : CallId := ⟨session, requestId notification⟩

end CallId

/-- Where the handling of a call stands: not begun, past the check on arrival, before `remove_cancelled` as a check
has found it cancelled, or over. -/
inductive Phase where
  | sent
  | checked
  | removing
  | answered (cancelled : Bool)

/-- A tools/call, and whether a cancellation of it arrived while it was pending. -/
structure Call where
  ref : CallId
  phase : Phase
  cancelArrived : Prop

namespace Call

/-- The call has been sent, and not been answered. -/
def Pending (c : Call) : Prop := ∀ b, c.phase ≠ .answered b

/-- A check is still to come. -/
def Waiting (c : Call) : Prop := c.phase = .sent ∨ c.phase = .checked

def arrive (target : CallId) (c : Call) : Call :=
  { c with cancelArrived := c.cancelArrived ∨ (c.Pending ∧ c.ref = target) }

theorem Waiting.pending {c : Call} (h : c.Waiting) : c.Pending := by
  intro b hb
  rcases h with h | h
  · cases h.symm.trans hb
  · cases h.symm.trans hb

end Call

/-- The set of cancelled keys, and the calls. -/
structure State where
  ids : Finset String
  calls : ℕ → Option Call

/-- What may happen next. -/
inductive Action where
  | send (n : ℕ) (ref : CallId)
  | checkArrival (n : ℕ)
  | refuse (n : ℕ)
  | checkDuring (n : ℕ)
  | remove (n : ℕ)
  | cancel (session : Option SessionId) (notification : Value)

namespace State

def goOn (s : State) (n : ℕ) (c : Call) (phase : Phase) : State :=
  { s with calls := Function.update s.calls n (some { c with phase := phase }) }

/-- The check of a call, which goes on in the phase `next` if it has not been cancelled. -/
def check (d : Display) (s : State) (n : ℕ) (c : Call) (next : Phase) : State :=
  s.goOn n c (if isCancelled d c.ref.session s.ids c.ref.id then .removing else next)

end State

/-- One step: a call is sent, checked on arrival, refused by the rate limiter or checked once more when its tool has
run, and its key is removed before it is answered as cancelled. -/
def step (d : Display) (s : State) : Action → Option State
  | .send n ref =>
    match s.calls n with
    | some _ => none
    | none => some { s with calls := Function.update s.calls n (some ⟨ref, .sent, False⟩) }
  | .checkArrival n =>
    match s.calls n with
    | some ⟨ref, .sent, arrived⟩ => some (s.check d n ⟨ref, .sent, arrived⟩ .checked)
    | _ => none
  | .refuse n =>
    match s.calls n with
    | some ⟨ref, .checked, arrived⟩ => some (s.goOn n ⟨ref, .checked, arrived⟩ (.answered false))
    | _ => none
  | .checkDuring n =>
    match s.calls n with
    | some ⟨ref, .checked, arrived⟩ => some (s.check d n ⟨ref, .checked, arrived⟩ (.answered false))
    | _ => none
  | .remove n =>
    match s.calls n with
    | some ⟨ref, .removing, arrived⟩ =>
      some ({ s with ids := removeCancelled d ref.session s.ids ref.id }.goOn n ⟨ref, .removing, arrived⟩
        (.answered true))
    | _ => none
  | .cancel session notification =>
    some { ids := notificationsCancelled d session s.ids notification,
           calls := fun n => (s.calls n).map (Call.arrive (.ofNotification session notification)) }

/-- A process starts. -/
def Initial (s : State) : Prop := s = ⟨∅, fun _ => none⟩

/-- Every call that has been answered was answered as cancelled exactly if a cancellation of it arrived while it was
pending. -/
def Exact (s : State) : Prop :=
  ∀ n c b, s.calls n = some c → c.phase = .answered b → (b = true ↔ c.cancelArrived)

/-- A cancellation does no harm to a call that waits: it is for this call; or it is for another, with another key,
and does not clear this call's key away. -/
def Spares (d : Display) (s : State) (target : CallId) (c : Call) : Prop :=
  (c.ref = target ∧ target.id ≠ .null) ∨
  (c.ref ≠ target ∧ (target.id = .null ∨
    (¬ Clash d c.ref.session c.ref.id target.session target.id ∧
      (s.ids.card < maxCancelledIds ∨ c.ref.key d ∉ s.ids))))

/-- The conditions: what is sent finds no cancellation left under its key and no other call pending with it, what is
refused has not been cancelled meanwhile, and cancellations spare the calls that wait. -/
def Ok (d : Display) (s : State) : Action → Prop
  | .send _ ref => ref.key d ∉ s.ids ∧ ∀ n c, s.calls n = some c → c.Pending → c.ref.key d ≠ ref.key d
  | .refuse n => ∀ c, s.calls n = some c → c.ref.key d ∉ s.ids
  | .cancel session notification =>
    ∀ n c, s.calls n = some c → c.Waiting → Spares d s (.ofNotification session notification) c
  | _ => True

/-! ## The invariant -/

section Invariant

variable {s s' : State} {n : ℕ} {c : Call}

/-- While a check is to come, a call's key is in the set exactly if the call has been cancelled; then the check's
result says so. -/
structure Call.Fits (d : Display) (ids : Finset String) (c : Call) : Prop where
  waiting : c.Waiting → (c.ref.key d ∈ ids ↔ c.cancelArrived)
  removing : c.phase = .removing → c.cancelArrived
  answered : ∀ b, c.phase = .answered b → (b = true ↔ c.cancelArrived)

/-- Pending calls have keys of their own, and every call fits the set. -/
structure Inv (d : Display) (s : State) : Prop where
  alone : ∀ m n c c', s.calls m = some c → s.calls n = some c' → c.Pending → c'.Pending →
    c.ref.key d = c'.ref.key d → m = n
  fits : ∀ n c, s.calls n = some c → c.Fits d s.ids

theorem Call.Fits.congr {ids ids' : Finset String} (h : c.Fits d ids)
    (hids : c.Waiting → (c.ref.key d ∈ ids' ↔ c.ref.key d ∈ ids)) : c.Fits d ids' :=
  ⟨fun hw => (hids hw).trans (h.waiting hw), h.removing, h.answered⟩

theorem Call.key_eq_iff {c c' : CallId} :
    c.key d = c'.key d ↔ c = c' ∨ Clash d c.session c.id c'.session c'.id := by
  cases c
  cases c'
  rw [CallId.mk.injEq]
  exact cancellationKey_eq_iff

theorem inv_initial : Inv d ⟨∅, fun _ => none⟩ := by
  refine ⟨?_, ?_⟩
  · intro m n c c' hm
    cases hm
  · intro n c hn
    cases hn

/-- A call whose key no other pending call has may take its place in the table. -/
theorem Inv.alone_update (h : Inv d s)
    (hfree : ∀ m c', m ≠ n → s.calls m = some c' → c'.Pending → c.Pending → c'.ref.key d ≠ c.ref.key d) :
    ∀ m m' c₁ c₂, Function.update s.calls n (some c) m = some c₁ → Function.update s.calls n (some c) m' = some c₂ →
      c₁.Pending → c₂.Pending → c₁.ref.key d = c₂.ref.key d → m = m' := by
  intro m m' c₁ c₂ hm hm' hp hp' hkey
  rcases update_some_cases hm with ⟨rfl, rfl⟩ | ⟨hmn, hold⟩
  · rcases update_some_cases hm' with ⟨rfl, rfl⟩ | ⟨hmn', hold'⟩
    · rfl
    · exact absurd hkey.symm (hfree m' c₂ hmn' hold' hp' hp)
  · rcases update_some_cases hm' with ⟨rfl, rfl⟩ | ⟨-, hold'⟩
    · exact absurd hkey (hfree m c₁ hmn hold hp hp')
    · exact h.alone m m' c₁ c₂ hold hold' hp hp' hkey

theorem Inv.goOn (h : Inv d s) (hn : s.calls n = some c) (hc : c.Pending) {ids : Finset String}
    (hids : ∀ key, key ≠ c.ref.key d → (key ∈ ids ↔ key ∈ s.ids)) {phase : Phase}
    (hfits : Call.Fits d ids { c with phase := phase }) : Inv d ({ s with ids := ids }.goOn n c phase) := by
  have hother : ∀ m c', m ≠ n → s.calls m = some c' → c'.Pending → c'.ref.key d ≠ c.ref.key d :=
    fun m c' hmn hold hp hkey => hmn (h.alone m n c' c hold hn hp hc hkey)
  refine ⟨h.alone_update fun m c' hmn hold hp _ => hother m c' hmn hold hp, ?_⟩
  intro m c' hm
  rcases update_some_cases hm with ⟨rfl, rfl⟩ | ⟨hmn, hold⟩
  · exact hfits
  · exact (h.fits m c' hold).congr fun hw => hids _ (hother m c' hmn hold hw.pending)

theorem Inv.check (h : Inv d s) (hn : s.calls n = some c) (hw : c.Waiting) {next : Phase}
    (hnext : next = .checked ∨ next = .answered false) : Inv d (s.check d n c next) := by
  have hcancelled := (h.fits n c hn).waiting hw
  refine h.goOn hn hw.pending (fun key _ => Iff.rfl) ?_
  by_cases hmem : c.ref.key d ∈ s.ids
  · rw [if_pos (by simpa [isCancelled, CallId.key] using hmem)]
    refine ⟨fun hw => ?_, fun _ => hcancelled.mp hmem, fun b hb => (by cases hb)⟩
    rcases hw with hw | hw <;> cases hw
  · have hno : ¬ c.cancelArrived := fun harrived => hmem (hcancelled.mpr harrived)
    rw [if_neg (by simpa [isCancelled, CallId.key] using hmem)]
    rcases hnext with rfl | rfl
    · exact ⟨fun _ => hcancelled, fun hr => (by cases hr), fun b hb => (by cases hb)⟩
    · refine ⟨fun hw => ?_, fun hr => (by cases hr), fun b hb => ?_⟩
      · rcases hw with hw | hw <;> cases hw
      · cases hb
        exact ⟨fun hf => (by cases hf), fun harrived => absurd harrived hno⟩

theorem Inv.send (h : Inv d s) (n : ℕ) {ref : CallId} (hfree : ref.key d ∉ s.ids)
    (halone : ∀ m c, s.calls m = some c → c.Pending → c.ref.key d ≠ ref.key d) :
    Inv d { s with calls := Function.update s.calls n (some ⟨ref, .sent, False⟩) } := by
  refine ⟨h.alone_update fun m c _ hold hp _ => halone m c hold hp, ?_⟩
  intro m c hm
  rcases update_some_cases hm with ⟨rfl, rfl⟩ | ⟨-, hold⟩
  · exact ⟨fun _ => iff_of_false hfree id, fun hr => (by cases hr), fun b hb => (by cases hb)⟩
  · exact h.fits m c hold

/-- A cancellation puts the key of a call that waits into the set exactly if it is for this call. -/
theorem Spares.mem_iff {session : Option SessionId} {notification : Value}
    (h : Spares d s (.ofNotification session notification) c) :
    c.ref.key d ∈ notificationsCancelled d session s.ids notification ↔
      c.ref.key d ∈ s.ids ∨ c.ref = .ofNotification session notification := by
  unfold notificationsCancelled
  rcases h with ⟨href, hnull⟩ | ⟨href, hnull | ⟨hclash, hkept⟩⟩
  · have hid : requestId notification ≠ .null := hnull
    rw [if_pos hid, mem_addCancelled, href]
    exact iff_of_true (Or.inl rfl) (Or.inr rfl)
  · have hid : requestId notification = .null := hnull
    rw [if_neg (not_not.mpr hid)]
    exact ⟨Or.inl, fun hor => hor.resolve_right href⟩
  · have hne : c.ref.key d ≠ cancellationKey d session (requestId notification) := by
      intro hkey
      exact (Call.key_eq_iff.mp hkey).elim href hclash
    split_ifs with hnull
    · rw [mem_addCancelled]
      constructor
      · rintro (hkey | ⟨-, hmem⟩)
        · exact absurd hkey hne
        · exact Or.inl hmem
      · rintro (hmem | heq)
        · exact Or.inr ⟨hkept.resolve_right (not_not.mpr hmem), hmem⟩
        · exact absurd heq href
    · exact ⟨Or.inl, fun hor => hor.resolve_right href⟩

theorem Inv.cancel (h : Inv d s) {session : Option SessionId} {notification : Value}
    (hspares : ∀ n c, s.calls n = some c → c.Waiting → Spares d s (.ofNotification session notification) c) :
    Inv d { ids := notificationsCancelled d session s.ids notification,
            calls := fun n => (s.calls n).map (Call.arrive (.ofNotification session notification)) } := by
  have hcalls : ∀ m c', (s.calls m).map (Call.arrive (.ofNotification session notification)) = some c' →
      ∃ c, s.calls m = some c ∧ Call.arrive (.ofNotification session notification) c = c' :=
    fun m c' hm => Option.map_eq_some_iff.mp hm
  refine ⟨fun m m' c₁ c₂ hm hm' hp hp' hkey => ?_, fun m c' hm => ?_⟩
  · obtain ⟨c, hold, rfl⟩ := hcalls m c₁ hm
    obtain ⟨c', hold', rfl⟩ := hcalls m' c₂ hm'
    exact h.alone m m' c c' hold hold' hp hp' hkey
  · obtain ⟨c, hold, rfl⟩ := hcalls m c' hm
    have hfits := h.fits m c hold
    refine ⟨fun hw => ?_, fun hr => Or.inl (hfits.removing hr), fun b hb => ?_⟩
    · have hwaits : c.Waiting := hw
      show c.ref.key d ∈ notificationsCancelled d session s.ids notification ↔ _ ∨ _
      rw [(hspares m c hold hwaits).mem_iff, hfits.waiting hwaits, and_iff_right hwaits.pending]
    · have hover : ¬ c.Pending := fun hp => hp b hb
      show b = true ↔ _ ∨ _
      rw [hfits.answered b hb, or_iff_left (fun hand => hover hand.1)]

theorem inv_step {a : Action} (h : Inv d s) (hok : Ok d s a) (hstep : step d s a = some s') : Inv d s' := by
  cases a with
  | send n ref =>
    simp only [step] at hstep
    split at hstep
    · cases hstep
    · obtain rfl := Option.some.inj hstep
      exact h.send n hok.1 hok.2
  | checkArrival n =>
    simp only [step] at hstep
    split at hstep
    · rename_i ref arrived hn
      obtain rfl := Option.some.inj hstep
      exact h.check hn (Or.inl rfl) (Or.inl rfl)
    · cases hstep
  | refuse n =>
    simp only [step] at hstep
    split at hstep
    · rename_i ref arrived hn
      obtain rfl := Option.some.inj hstep
      have hw : Call.Waiting ⟨ref, .checked, arrived⟩ := Or.inr rfl
      have hno : ¬ arrived := fun harrived => hok _ hn (((h.fits n _ hn).waiting hw).mpr harrived)
      refine h.goOn hn hw.pending (fun _ _ => Iff.rfl) ⟨fun hw => ?_, fun hr => (by cases hr), fun b hb => ?_⟩
      · rcases hw with hw | hw <;> cases hw
      · cases hb
        exact ⟨fun hf => (by cases hf), fun harrived => absurd harrived hno⟩
    · cases hstep
  | checkDuring n =>
    simp only [step] at hstep
    split at hstep
    · rename_i ref arrived hn
      obtain rfl := Option.some.inj hstep
      exact h.check hn (Or.inr rfl) (Or.inr rfl)
    · cases hstep
  | remove n =>
    simp only [step] at hstep
    split at hstep
    · rename_i ref arrived hn
      obtain rfl := Option.some.inj hstep
      have harrived : arrived := (h.fits n _ hn).removing rfl
      have hpending : Call.Pending ⟨ref, .removing, arrived⟩ := fun b hb => by cases hb
      refine h.goOn hn hpending (fun key hkey => ?_) ⟨fun hw => ?_, fun hr => (by cases hr), fun b hb => ?_⟩
      · exact ⟨Finset.mem_of_mem_erase, fun hmem => Finset.mem_erase.mpr ⟨hkey, hmem⟩⟩
      · rcases hw with hw | hw <;> cases hw
      · cases hb
        exact iff_of_true rfl harrived
    · cases hstep
  | cancel session notification =>
    obtain rfl := Option.some.inj hstep
    exact h.cancel hok

end Invariant

/-- **Cancellation is exact** in the runs that keep the conditions. -/
theorem exact_of_reachable {s : State} (h : ReachableWhen Initial (step d) (Ok d) s) : Exact s := by
  have hinv : Inv d s := by
    refine h.invariant ?_ fun s a s' hs hok hstep => inv_step hs hok hstep
    rintro s rfl
    exact inv_initial
  intro n c b hn hb
  exact (hinv.fits n c hn).answered b hb

/-- The call 42 of a session, and a notification that cancels it. -/
def call42 : CallId := ⟨some sessionA, .number (.posInt 42)⟩

def cancel42 : Value := .object [("params", .object [("requestId", .number (.posInt 42))])]

/-- A call that is cancelled before it is handled. -/
theorem exact_of_reachable_call42 : ∃ s, Exact s ∧ (s.calls 0).map Call.phase = some (.answered true) := by
  have hsent : ReachableWhen Initial (step plainDisplay) (Ok plainDisplay) _ :=
    .step (a := .send 0 call42) (.init rfl) ⟨Finset.notMem_empty _, fun n c hn => by cases hn⟩ rfl
  have hspares : ∀ s n c, Function.update (fun _ => none) 0 (some ⟨call42, .sent, False⟩) n = some c →
      c.Waiting → Spares plainDisplay s (.ofNotification (some sessionA) cancel42) c := by
    intro s n c hn _
    rcases update_some_cases hn with ⟨-, rfl⟩ | ⟨-, hno⟩
    · exact Or.inl ⟨rfl, by decide⟩
    · cases hno
  have hanswered : ReachableWhen Initial (step plainDisplay) (Ok plainDisplay) _ :=
    .step (a := .remove 0) (.step (a := .checkArrival 0)
      (.step (a := .cancel (some sessionA) cancel42) hsent (hspares _) rfl) trivial rfl) trivial rfl
  exact ⟨_, exact_of_reachable hanswered, rfl⟩

/-- A cancellation that comes when the call has been answered cancels the next call with its id. -/
theorem late_cancellation :
    ∃ s, ReachableWhen Initial (step plainDisplay) (fun _ _ => True) s ∧ ¬ Exact s := by
  have hlate : ReachableWhen Initial (step plainDisplay) (fun _ _ => True) _ :=
    .step (a := .cancel (some sessionA) cancel42) (.step (a := .checkDuring 0) (.step (a := .checkArrival 0)
      (.step (a := .send 0 call42) (.init rfl) trivial rfl) trivial rfl) trivial rfl) trivial rfl
  have hreused : ReachableWhen Initial (step plainDisplay) (fun _ _ => True) _ :=
    .step (a := .remove 1) (.step (a := .checkArrival 1) (.step (a := .send 1 call42) hlate trivial rfl)
      trivial rfl) trivial rfl
  exact ⟨_, hreused, fun h => (h 1 _ true rfl rfl).mp rfl⟩

end VelocityMcp.JsonRpc
