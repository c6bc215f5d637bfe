import VelocityMcp.Lib.Machine
import VelocityMcp.ResourceStore

/-!
# Subscriptions — who is told of a resource's updates (`resources.rs`)

`subscriptions_kept_iff`: who is subscribed can subscribe again unless the URI has as many subscribers as it may have.
-/

namespace VelocityMcp.ResourceStore

open Lib

/-! ## The code -/

/-- `MAX_SUBSCRIBERS_PER_URI`. -/
def maxSubscribersPerUri : ℕ := 1000

def maxSubscribedUris : ℕ := 256

variable (store : ResourceStore)

/-- A resource is registered for the URI. -/
def Listed (uri : String) : Prop := ∃ r ∈ store.resources, r.uri = uri

instance (uri : String) : Decidable (store.Listed uri) :=
  inferInstanceAs (Decidable (∃ r ∈ store.resources, r.uri = uri))

/-- `subscribe`: what is answered, and the store afterwards. -/
def subscribe (uri subscriberId : String) : Except String Unit × ResourceStore :=
  if ¬store.Listed uri then (.error s!"Resource not found: {uri}", store)
  else if store.subscriptions.len ≥ maxSubscribedUris ∧ uri ∉ store.subscriptions then
    (.error s!"Too many subscribed resources (max {maxSubscribedUris})", store)
  else
    let subscribers := (store.subscriptions.lookup uri).getD ∅
    let entered := if uri ∈ store.subscriptions then store.subscriptions else store.subscriptions.insert uri ∅
    if subscribers.card ≥ maxSubscribersPerUri then
      (.error s!"Too many subscribers for resource (max {maxSubscribersPerUri})",
        { store with subscriptions := entered })
    else (.ok (), { store with subscriptions := entered.insert uri (insert subscriberId subscribers) })

/-- `unsubscribe`, which always succeeds: the store afterwards. -/
def unsubscribe (uri subscriberId : String) : ResourceStore :=
  match store.subscriptions.lookup uri with
  | none => store
  | some subscribers =>
    if subscribers.erase subscriberId = ∅ then { store with subscriptions := store.subscriptions.erase uri }
    else { store with subscriptions := store.subscriptions.insert uri (subscribers.erase subscriberId) }

/-! ## What is to hold -/

/-- The sessions that have subscribed to a resource. -/
def subscribers (uri : String) : Finset String := (store.subscriptions.lookup uri).getD ∅

/-- Two stores list the same resources and have the same subscribers. -/
def Same (store store' : ResourceStore) : Prop :=
  store.resources = store'.resources ∧ ∀ uri, store.subscriptions.lookup uri = store'.subscriptions.lookup uri

/-- The caps: so many URIs, each with at least one subscriber and at most so many. -/
structure WithinCaps (store : ResourceStore) : Prop where
  uris : store.subscriptions.len ≤ maxSubscribedUris
  each : ∀ uri subscribers, store.subscriptions.lookup uri = some subscribers →
    1 ≤ subscribers.card ∧ subscribers.card ≤ maxSubscribersPerUri

def CanSubscribeAgain (store : ResourceStore) (uri subscriberId : String) : Prop :=
  (store.subscribe uri subscriberId).1 = .ok () ∧ Same (store.subscribe uri subscriberId).2 store

section Operations

variable {store : ResourceStore} {uri u subscriberId s : String}

theorem lookup_of_withinCaps (h : store.WithinCaps) (uri : String) : store.subscriptions.lookup uri =
    if store.subscribers uri = ∅ then none else some (store.subscribers uri) := by
  rw [subscribers]
  cases hlookup : store.subscriptions.lookup uri with
  | none => rfl
  | some subscribers =>
    have hpos := (h.each uri subscribers hlookup).1
    rw [Option.getD_some, if_neg (Finset.card_pos.mp hpos).ne_empty]

theorem same_of_subscribers {store store' : ResourceStore} (h : store.WithinCaps) (h' : store'.WithinCaps)
    (hres : store.resources = store'.resources) (hsub : ∀ uri, store.subscribers uri = store'.subscribers uri) :
    Same store store' :=
  ⟨hres, fun uri => by rw [lookup_of_withinCaps h, lookup_of_withinCaps h', hsub]⟩

theorem mem_subscriptions_of_card (h : 0 < (store.subscribers uri).card) : uri ∈ store.subscriptions := by
  rw [← AList.lookup_isSome]
  rw [subscribers] at h
  cases hlookup : store.subscriptions.lookup uri with
  | none =>
    rw [hlookup] at h
    exact absurd h (by simp)
  | some subscribers => rfl

/-- A subscription can be made: the resource is registered, and both caps leave room. -/
def Accepts (store : ResourceStore) (uri : String) : Prop :=
  store.Listed uri ∧ (uri ∈ store.subscriptions ∨ store.subscriptions.len < maxSubscribedUris) ∧
    (store.subscribers uri).card < maxSubscribersPerUri

def withSubscriber (store : ResourceStore) (uri subscriberId : String) : Map String (Finset String) :=
  (if uri ∈ store.subscriptions then store.subscriptions else store.subscriptions.insert uri ∅).insert uri
    (insert subscriberId (store.subscribers uri))

/-- **What a subscription does**: nothing, or it enters the subscriber. -/
theorem subscribe_eq (uri subscriberId : String) :
    (¬store.Accepts uri ∧ ∃ e, store.subscribe uri subscriberId = (.error e, store)) ∨
      (store.Accepts uri ∧ store.subscribe uri subscriberId =
        (.ok (), { store with subscriptions := store.withSubscriber uri subscriberId })) := by
  rw [subscribe]
  by_cases hlisted : store.Listed uri
  · rw [if_neg (not_not.mpr hlisted)]
    by_cases hfull : store.subscriptions.len ≥ maxSubscribedUris ∧ uri ∉ store.subscriptions
    · rw [if_pos hfull]
      refine .inl ⟨fun h => ?_, _, rfl⟩
      rcases h.2.1 with hmem | hlt
      · exact hfull.2 hmem
      · exact absurd hfull.1 (Nat.not_le.mpr hlt)
    · have hroom : uri ∈ store.subscriptions ∨ store.subscriptions.len < maxSubscribedUris := by
        by_cases hmem : uri ∈ store.subscriptions
        · exact .inl hmem
        · exact .inr (Nat.not_le.mp fun hle => hfull ⟨hle, hmem⟩)
      rw [if_neg hfull]
      dsimp only
      rw [← subscribers]
      by_cases hcard : (store.subscribers uri).card ≥ maxSubscribersPerUri
      · have hpos : 0 < (store.subscribers uri).card := lt_of_lt_of_le (by decide) hcard
        rw [if_pos hcard, if_pos (mem_subscriptions_of_card hpos)]
        exact .inl ⟨fun h => absurd h.2.2 (Nat.not_lt.mpr hcard), _, rfl⟩
      · rw [if_neg hcard]
        exact .inr ⟨⟨hlisted, hroom, Nat.not_le.mp hcard⟩, rfl⟩
  · rw [if_pos hlisted]
    exact .inl ⟨fun h => hlisted h.1, _, rfl⟩

theorem lookup_withSubscriber (u : String) : (store.withSubscriber uri subscriberId).lookup u =
    if u = uri then some (insert subscriberId (store.subscribers uri)) else store.subscriptions.lookup u := by
  rw [withSubscriber]
  by_cases hu : u = uri
  · subst hu
    rw [if_pos rfl, AList.lookup_insert]
  · rw [if_neg hu, AList.lookup_insert_ne hu]
    split_ifs
    · rfl
    · rw [AList.lookup_insert_ne hu]

theorem len_withSubscriber : (store.withSubscriber uri subscriberId).len =
    if uri ∈ store.subscriptions then store.subscriptions.len else store.subscriptions.len + 1 := by
  rw [withSubscriber]
  split_ifs with hmem
  · rw [Map.len_insert_of_mem hmem]
  · rw [Map.len_insert_of_mem (AList.mem_insert _ |>.mpr (.inl rfl)), Map.len_insert hmem]

theorem subscribers_withSubscriber (u : String) :
    ({ store with subscriptions := store.withSubscriber uri subscriberId } : ResourceStore).subscribers u =
      if u = uri then insert subscriberId (store.subscribers uri) else store.subscribers u := by
  rw [subscribers, lookup_withSubscriber]
  split_ifs
  · rfl
  · rfl

theorem WithinCaps.withSubscriber (h : store.WithinCaps) (haccepts : store.Accepts uri) :
    WithinCaps { store with subscriptions := store.withSubscriber uri subscriberId } where
  uris := by
    rw [len_withSubscriber]
    split_ifs with hmem
    · exact h.uris
    · exact haccepts.2.1.resolve_left hmem
  each u subs hlookup := by
    rw [lookup_withSubscriber] at hlookup
    split_ifs at hlookup with hu
    · obtain rfl := Option.some.inj hlookup
      have hle := Finset.card_insert_le subscriberId (store.subscribers uri)
      have hcard := haccepts.2.2
      exact ⟨Finset.card_pos.mpr (Finset.insert_nonempty _ _), by omega⟩
    · exact h.each u subs hlookup

/-- **What an unsubscription does.** -/
theorem subscribers_unsubscribe (u : String) : (store.unsubscribe uri subscriberId).subscribers u =
    if u = uri then (store.subscribers uri).erase subscriberId else store.subscribers u := by
  rw [unsubscribe]
  cases hlookup : store.subscriptions.lookup uri with
  | none =>
    have hempty : store.subscribers uri = ∅ := by rw [subscribers, hlookup]; rfl
    dsimp only
    split_ifs with hu
    · rw [hu, hempty, Finset.erase_empty]
    · rfl
  | some subs =>
    have hsubs : store.subscribers uri = subs := by rw [subscribers, hlookup]; rfl
    dsimp only
    by_cases hu : u = uri
    · subst hu
      rw [if_pos rfl, hsubs]
      split_ifs with hlast
      · rw [subscribers, AList.lookup_erase, hlast]
        rfl
      · rw [subscribers, AList.lookup_insert]
        rfl
    · rw [if_neg hu]
      split_ifs
      · rw [subscribers, AList.lookup_erase_ne hu, ← subscribers]
      · rw [subscribers, AList.lookup_insert_ne hu, ← subscribers]

theorem resources_unsubscribe : (store.unsubscribe uri subscriberId).resources = store.resources := by
  rw [unsubscribe]
  cases store.subscriptions.lookup uri with
  | none => rfl
  | some subs =>
    dsimp only
    split_ifs <;> rfl

theorem WithinCaps.unsubscribe (h : store.WithinCaps) (uri subscriberId : String) :
    (store.unsubscribe uri subscriberId).WithinCaps := by
  rw [ResourceStore.unsubscribe]
  cases hlookup : store.subscriptions.lookup uri with
  | none => exact h
  | some subs =>
    have hmem : uri ∈ store.subscriptions := AList.lookup_isSome.mp (hlookup ▸ rfl)
    dsimp only
    split_ifs with hlast
    · constructor
      · exact (Map.len_erase_le uri store.subscriptions).trans h.uris
      · intro u subs' hlookup'
        exact h.each u subs' (Map.lookup_erase_some hlookup').2
    · constructor
      · rw [Map.len_insert_of_mem hmem]
        exact h.uris
      · intro u subs' hlookup'
        rcases Map.lookup_insert_some hlookup' with ⟨-, rfl⟩ | ⟨-, hold⟩
        · have hle := Finset.card_erase_le (s := subs) (a := subscriberId)
          have hcap := (h.each uri subs hlookup).2
          exact ⟨Finset.card_pos.mpr (Finset.nonempty_iff_ne_empty.mpr hlast), by omega⟩
        · exact h.each u subs' hold

theorem subscribe_eq_ok_iff : (store.subscribe uri subscriberId).1 = .ok () ↔ store.Accepts uri := by
  rcases store.subscribe_eq uri subscriberId with ⟨hno, e, heq⟩ | ⟨hyes, heq⟩
  · rw [heq]
    exact ⟨nofun, fun h => absurd h hno⟩
  · rw [heq]
    exact ⟨fun _ => hyes, fun _ => rfl⟩

/-- **What a registration leaves alone.** -/
theorem subscriptions_register {store' : ResourceStore} {r : Registration} (h : store.register r = .ok store') :
    store'.subscriptions = store.subscriptions := by
  obtain ⟨key, name, description, adapter⟩ := r
  cases adapter <;> obtain rfl := push_map_eq_ok h <;> rfl

end Operations

/-! ## Runs -/

/-- What can be done to the store. -/
inductive Operation where
  | register (r : Registration)
  | subscribe (uri subscriberId : String)
  | unsubscribe (uri subscriberId : String)

/-- One operation. -/
def step (store : ResourceStore) : Operation → ResourceStore
  | .register r =>
    match store.register r with
    | .ok store' => store'
    | .error _ => store
  | .subscribe uri subscriberId => (store.subscribe uri subscriberId).2
  | .unsubscribe uri subscriberId => store.unsubscribe uri subscriberId

/-- Within the caps, and whoever is subscribed to is registered. -/
structure Sound (store : ResourceStore) : Prop where
  withinCaps : store.WithinCaps
  listed : ∀ uri, (store.subscribers uri).Nonempty → store.Listed uri

section Runs

variable {store : ResourceStore} {op : Operation} {ops : List Operation} {uri subscriberId : String}

theorem sound_empty : empty.Sound where
  withinCaps := ⟨Nat.zero_le _, fun _ _ h => nomatch h⟩
  listed uri h := absurd h (by simp [subscribers, empty])

theorem Sound.step (h : store.Sound) (op : Operation) : (store.step op).Sound := by
  cases op with
  | register r =>
    rw [ResourceStore.step]
    cases hreg : store.register r with
    | error e => exact h
    | ok store' =>
      have hsubs := subscriptions_register hreg
      refine ⟨⟨hsubs ▸ h.withinCaps.uris, fun uri subs => hsubs ▸ h.withinCaps.each uri subs⟩, fun uri hne => ?_⟩
      rw [subscribers, hsubs, ← subscribers] at hne
      obtain ⟨q, hq, huri⟩ := h.listed uri hne
      exact ⟨q, by rw [(resources_of_register hreg).1]; exact List.mem_append_left _ hq, huri⟩
  | subscribe uri subscriberId =>
    rw [ResourceStore.step]
    rcases store.subscribe_eq uri subscriberId with ⟨-, e, heq⟩ | ⟨haccepts, heq⟩
    · rw [heq]
      exact h
    · rw [heq]
      refine ⟨h.withinCaps.withSubscriber haccepts, fun u hne => ?_⟩
      rw [subscribers_withSubscriber] at hne
      split_ifs at hne with hu
      · rw [hu]
        exact haccepts.1
      · exact h.listed u hne
  | unsubscribe uri subscriberId =>
    refine ⟨h.withinCaps.unsubscribe uri subscriberId, fun u hne => ?_⟩
    rw [ResourceStore.step, subscribers_unsubscribe] at hne
    rw [Listed, ResourceStore.step, resources_unsubscribe]
    split_ifs at hne with hu
    · rw [hu]
      exact h.listed uri (hne.mono (Finset.erase_subset _ _))
    · exact h.listed u hne

theorem sound_run (ops : List Operation) : (ops.foldl step empty).Sound := by
  induction ops using List.reverseRecOn with
  | nil => exact sound_empty
  | append_singleton ops op ih =>
    rw [List.foldl_append]
    exact ih.step op

/-- A subscription that succeeds, for a registered resource. -/
def Subscribes (uri subscriberId : String) (store : ResourceStore) (op : Operation) : Prop :=
  op = .subscribe uri subscriberId ∧ store.Listed uri ∧ (store.subscribe uri subscriberId).1 = .ok ()

/-- **Where a subscriber comes from.** -/
theorem mem_subscribers_step : subscriberId ∈ (store.step op).subscribers uri ↔
    Subscribes uri subscriberId store op ∨
      (subscriberId ∈ store.subscribers uri ∧ op ≠ .unsubscribe uri subscriberId) := by
  rw [Subscribes, subscribe_eq_ok_iff]
  cases op with
  | register r =>
    rw [step]
    cases hreg : store.register r with
    | error e => simp
    | ok store' =>
      dsimp only
      rw [subscribers, subscriptions_register hreg, ← subscribers]
      simp
  | subscribe u s =>
    rw [step]
    rcases store.subscribe_eq u s with ⟨hno, e, heq⟩ | ⟨haccepts, heq⟩
    · rw [heq]
      have hnone : ¬(.subscribe u s = Operation.subscribe uri subscriberId ∧ store.Listed uri ∧ store.Accepts uri) := by
        rintro ⟨hop, -, hyes⟩
        rw [(Operation.subscribe.inj hop).1] at hno
        exact hno hyes
      rw [or_iff_right hnone]
      simp
    · rw [heq, subscribers_withSubscriber]
      split_ifs with hu
      · subst hu
        simp [haccepts, haccepts.1, eq_comm]
      · simp [Ne.symm hu]
  | unsubscribe u s =>
    rw [step, subscribers_unsubscribe]
    split_ifs with hu
    · subst hu
      simp [eq_comm, and_comm]
    · simp [Ne.symm hu]

/-- **Who is subscribed**: whoever subscribed while the resource was registered, and has not unsubscribed since. -/
theorem mem_subscribers_iff : subscriberId ∈ (ops.foldl step empty).subscribers uri ↔
    Since step (Subscribes uri subscriberId) (fun _ op => op ≠ .unsubscribe uri subscriberId) empty ops :=
  holds_iff_since (R := fun store : ResourceStore => subscriberId ∈ store.subscribers uri) (Finset.notMem_empty _)
    fun _ _ => mem_subscribers_step

/-- **To subscribe again** is possible as long as the URI has room for one more. -/
theorem canSubscribeAgain_iff (h : store.Sound) (hmem : subscriberId ∈ store.subscribers uri) :
    store.CanSubscribeAgain uri subscriberId ↔ (store.subscribers uri).card < maxSubscribersPerUri := by
  have hne : (store.subscribers uri).Nonempty := ⟨subscriberId, hmem⟩
  constructor
  · intro hagain
    exact (subscribe_eq_ok_iff.mp hagain.1).2.2
  · intro hroom
    have haccepts : store.Accepts uri :=
      ⟨h.listed uri hne, .inl (mem_subscriptions_of_card (Finset.card_pos.mpr hne)), hroom⟩
    refine ⟨subscribe_eq_ok_iff.mpr haccepts, ?_⟩
    rcases store.subscribe_eq uri subscriberId with ⟨hno, -⟩ | ⟨-, heq⟩
    · exact absurd haccepts hno
    · rw [heq]
      apply same_of_subscribers (h.withinCaps.withSubscriber haccepts) h.withinCaps rfl
      intro u
      rw [subscribers_withSubscriber]
      split_ifs with hu
      · rw [hu, Finset.insert_eq_of_mem hmem]
      · rfl

/-- **Unsubscribing undoes subscribing**, whatever the subscription was answered. -/
theorem same_unsubscribe_subscribe (h : store.Sound) (hnew : subscriberId ∉ store.subscribers uri) :
    Same ((store.subscribe uri subscriberId).2.unsubscribe uri subscriberId) store := by
  rcases store.subscribe_eq uri subscriberId with ⟨-, e, heq⟩ | ⟨haccepts, heq⟩
  · rw [heq]
    apply same_of_subscribers (h.withinCaps.unsubscribe uri subscriberId) h.withinCaps resources_unsubscribe
    intro u
    rw [subscribers_unsubscribe]
    split_ifs with hu
    · rw [hu, Finset.erase_eq_of_notMem hnew]
    · rfl
  · rw [heq]
    apply same_of_subscribers ((h.withinCaps.withSubscriber haccepts).unsubscribe uri subscriberId) h.withinCaps
    · exact resources_unsubscribe
    · intro u
      rw [subscribers_unsubscribe, subscribers_withSubscriber, subscribers_withSubscriber, if_pos rfl]
      split_ifs with hu
      · rw [hu, Finset.erase_insert hnew]
      · rfl

/-! ### The invariant -/

/-- **What a run of the store keeps**: the caps; who is subscribed; that unsubscribing undoes a new subscription; and
that whoever is subscribed can subscribe again. -/
structure Kept (ops : List Operation) (uri subscriberId : String) : Prop where
  withinCaps : (ops.foldl step empty).WithinCaps
  subscribed : subscriberId ∈ (ops.foldl step empty).subscribers uri ↔
    Since step (Subscribes uri subscriberId) (fun _ op => op ≠ .unsubscribe uri subscriberId) empty ops
  undone : subscriberId ∉ (ops.foldl step empty).subscribers uri →
    Same (((ops.foldl step empty).subscribe uri subscriberId).2.unsubscribe uri subscriberId) (ops.foldl step empty)
  again : subscriberId ∈ (ops.foldl step empty).subscribers uri →
    (ops.foldl step empty).CanSubscribeAgain uri subscriberId

/-- **The invariant is kept exactly if** the URI of a subscriber has room for one more. -/
theorem subscriptions_kept_iff (ops : List Operation) (uri subscriberId : String) : Kept ops uri subscriberId ↔
    (subscriberId ∈ (ops.foldl step empty).subscribers uri →
      ((ops.foldl step empty).subscribers uri).card < maxSubscribersPerUri) := by
  have hsound := sound_run ops
  constructor
  · intro h hmem
    exact (canSubscribeAgain_iff hsound hmem).mp (h.again hmem)
  · intro h
    refine ⟨hsound.withinCaps, mem_subscribers_iff, same_unsubscribe_subscribe hsound, fun hmem => ?_⟩
    exact (canSubscribeAgain_iff hsound hmem).mpr (h hmem)

/-! ### A resource with as many subscribers as it may have -/

/-- A file that many want to hear of. -/
def popular : Registration := ⟨"res://a", "a", "a file", .file [0x61]⟩

/-- Subscribers of different lengths. -/
def fan (i : ℕ) : String := String.ofList (List.replicate i 'a')

theorem fan_injective {i j : ℕ} (h : fan i = fan j) : i = j := by
  have hlen := congrArg (fun s : String => s.toList.length) h
  simpa [fan] using hlen

def fanCalls (n : ℕ) : List Operation :=
  .register popular :: (List.range n).map fun i => .subscribe "res://a" (fan i)

/-- The store after them. -/
def fans (n : ℕ) : ResourceStore := (fanCalls n).foldl step empty

theorem fans_succ (n : ℕ) : fans (n + 1) = ((fans n).subscribe "res://a" (fan n)).2 := by
  rw [fans, fanCalls, List.range_succ, List.map_append, List.map_singleton, ← List.cons_append, List.foldl_append]
  rfl

theorem subscribers_fans {n : ℕ} (hn : n ≤ maxSubscribersPerUri) : (fans n).Listed "res://a" ∧
    ("res://a" ∈ (fans n).subscriptions ∨ (fans n).subscriptions.len < maxSubscribedUris) ∧
      (fans n).subscribers "res://a" = (Finset.range n).image fan := by
  induction n with
  | zero => exact ⟨⟨popular.resource, List.mem_singleton_self _, rfl⟩, .inr (by decide), rfl⟩
  | succ n ih =>
    obtain ⟨hlisted, hroom, hsubs⟩ := ih (by omega)
    have hcard : ((fans n).subscribers "res://a").card ≤ n := by
      rw [hsubs]
      exact Finset.card_image_le.trans (Finset.card_range n).le
    have haccepts : (fans n).Accepts "res://a" := ⟨hlisted, hroom, by omega⟩
    rcases (fans n).subscribe_eq "res://a" (fan n) with ⟨hno, -⟩ | ⟨-, heq⟩
    · exact absurd haccepts hno
    · rw [fans_succ, heq]
      refine ⟨hlisted, .inl ?_, ?_⟩
      · exact (AList.mem_insert _).mpr (.inl rfl)
      · rw [subscribers_withSubscriber, if_pos rfl, hsubs, Finset.range_add_one, Finset.image_insert]

theorem not_kept_fans {n : ℕ} (hn : n = maxSubscribersPerUri) : ¬Kept (fanCalls n) "res://a" (fan 0) := by
  intro h
  obtain ⟨-, -, hsubs⟩ := subscribers_fans hn.le
  rw [subscriptions_kept_iff, ← fans, hsubs, Finset.card_image_of_injective _ fun _ _ => fan_injective,
    Finset.card_range] at h
  have hpos : 0 < n := hn ▸ Nat.succ_pos 999
  have hlt := h (Finset.mem_image_of_mem fan (Finset.mem_range.mpr hpos))
  omega

/-- A resource with more subscribers than it may have loses the first. -/
theorem subscriptions_not_kept : ¬∀ ops uri subscriberId, Kept ops uri subscriberId := by
  intro h
  exact not_kept_fans rfl (h (fanCalls maxSubscribersPerUri) "res://a" (fan 0))

end Runs

end VelocityMcp.ResourceStore
