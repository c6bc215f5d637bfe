import VelocityMcp.Lib.Bytes
import VelocityMcp.Lib.Delimited
import VelocityMcp.Lib.Lru
import VelocityMcp.Lib.Machine

/-!
# Http.Cache — responses that are kept for a while (`ResponseCache` and `cache_middleware` of `middleware.rs`)

`transparent_of_reachable`: when every response is one that the handler gives, or gave to the same request.
-/

namespace VelocityMcp.Http.Cache

open Lib

/-! ## Requests and responses -/

/-- The headers of a message, with their names in lower case. -/
abbrev HeaderMap := List (String × String)

def HeaderMap.insert (headers : HeaderMap) (name value : String) : HeaderMap :=
  headers.filter (fun e => e.1 ≠ name) ++ [(name, value)]

structure Method where
  token : String
  no_colon : ':' ∉ token.toList

/-- What the middleware sees of a request. -/
structure Request where
  method : Method
  uri : String
  headers : HeaderMap
  body : Bytes

/-- What says who makes a request: the `Authorization` headers. -/
def Request.credentials (request : Request) : List String :=
  (request.headers.filter fun e => e.1 = "authorization").map Prod.snd

/-- A response, its body read to the end. -/
structure Response where
  status : ℕ
  headers : HeaderMap
  body : Bytes

def isSuccess (status : ℕ) : Prop := 200 ≤ status ∧ status < 300

instance (status : ℕ) : Decidable (isSuccess status) := inferInstanceAs (Decidable (_ ∧ _))

/-! ## The cache -/

structure CacheEntry where
  response : Bytes
  status : ℕ
  headers : HeaderMap
  expiresAt : ℕ

structure ResponseCache where
  entries : List (String × CacheEntry)
  maxSize : ℕ
  defaultTtl : ℕ

/-- What `to_bytes` takes at most. -/
def maxBody : ℕ := 10 * 1024 * 1024

/-- The last `Instant`, in nanoseconds: its seconds are an `i64`. -/
def maxInstant : ℕ := 2 ^ 63 * 1000000000 - 1

def toBytes (body : Bytes) (limit : ℕ) : Option Bytes := if body.length ≤ limit then some body else none

namespace ResponseCache

def withMaxSize (defaultTtl maxSize : ℕ) : ResponseCache := ⟨[], if maxSize = 0 then 10000 else maxSize, defaultTtl⟩

/-- `get`, at the time `now`. -/
def get (cache : ResponseCache) (key : String) (now : ℕ) : Option Response × ResponseCache :=
  match Lru.find cache.entries key with
  | none => (none, cache)
  | some entry =>
    if now < entry.expiresAt then
      (some ⟨entry.status, HeaderMap.insert entry.headers "x-cache" "HIT", entry.response⟩,
        { cache with entries := (key, entry) :: Lru.pop cache.entries key })
    else (none, { cache with entries := Lru.pop cache.entries key })

/-- When what `set` stores at the time `now` is going to expire; it panics where that is no `Instant`. -/
def expiry (cache : ResponseCache) (ttl : Option ℕ) (now : ℕ) : Option ℕ :=
  if now + ttl.getD cache.defaultTtl ≤ maxInstant then some (now + ttl.getD cache.defaultTtl) else none

/-- `set`, from there on. -/
def set (cache : ResponseCache) (key : String) (response : Response) (expiresAt : ℕ) : Response × ResponseCache :=
  match toBytes response.body maxBody with
  | none => ({ response with body := [] }, cache)
  | some bodyBytes =>
    (⟨response.status, response.headers, bodyBytes⟩,
      { cache with
        entries := (key, ⟨bodyBytes, response.status, response.headers, expiresAt⟩) ::
          Lru.rest cache.maxSize cache.entries key })

/-- `cleanup`, at the time `now`. -/
def cleanup (cache : ResponseCache) (now : ℕ) : ResponseCache :=
  { cache with
    entries := ((cache.entries.filter fun e => e.2.expiresAt ≤ now).map Prod.fst).foldl Lru.pop cache.entries }

/-- All entries go. -/
def clear (cache : ResponseCache) : ResponseCache := { cache with entries := [] }

end ResponseCache

/-- The `cache_key` of a request. -/
def cacheKey (request : Request) : String := request.method.token ++ ":" ++ request.uri

theorem cacheKey_eq_iff {p q : Request} : cacheKey p = cacheKey q ↔ p.method = q.method ∧ p.uri = q.uri := by
  constructor
  · intro h
    have hlist := congrArg String.toList h
    rw [cacheKey, cacheKey, String.toList_append, String.toList_append, String.toList_append, String.toList_append,
      List.append_assoc, List.append_assoc] at hlist
    obtain ⟨htoken, huri⟩ := eq_of_append_cons p.method.no_colon q.method.no_colon hlist
    refine ⟨?_, String.toList_inj.mp huri⟩
    rcases p with ⟨⟨token, hp⟩, _⟩
    rcases q with ⟨⟨token', hq⟩, _⟩
    obtain rfl : token = token' := String.toList_inj.mp htoken
    rfl
  · rintro ⟨hmethod, huri⟩
    rw [cacheKey, cacheKey, hmethod, huri]

/-! ## Requests over time -/

/-- What the handler gave to a request, and when. -/
structure Given where
  request : Request
  response : Response
  time : ℕ

/-- Where `cache_middleware` stands with a request: the handler has it, or its response is being stored. -/
inductive Task where
  | handling (request : Request)
  | storing (given : Given) (expiresAt : ℕ)

/-- The response to a request, or none where the middleware panicked. -/
structure Answer where
  request : Request
  response : Option Response
  time : ℕ

/-- The cache, the clock and the requests; and what has happened: what the handler gave, what of it was put into the
cache (the last first), and what was answered. -/
structure State where
  cache : ResponseCache
  clock : ℕ
  tasks : ℕ → Option Task
  given : List Given
  stored : List Given
  answers : List Answer

/-- What may happen next. -/
inductive Action where
  | wait (d : ℕ)
  | arrive (n : ℕ) (request : Request)
  | handled (n : ℕ)
  | store (n : ℕ)
  | cleanup
  | clear

namespace State

def goOn (s : State) (n : ℕ) (task : Task) : State := { s with tasks := Function.update s.tasks n (some task) }

def answer (s : State) (n : ℕ) (request : Request) (response : Option Response) : State :=
  { s with
    tasks := Function.update s.tasks n none
    answers := ⟨request, response, s.clock⟩ :: s.answers }

def lookup (s : State) (n : ℕ) (request : Request) : State :=
  let r := s.cache.get (cacheKey request) s.clock
  match r.1 with
  | some response => { s with cache := r.2 }.answer n request (some response)
  | none => { s with cache := r.2 }.goOn n (.handling request)

def give (s : State) (n : ℕ) (request : Request) (response : Response) : State :=
  let given : Given := ⟨request, response, s.clock⟩
  let s' := { s with given := given :: s.given }
  if isSuccess response.status then
    match s.cache.expiry none s.clock with
    | some expiresAt => s'.goOn n (.storing given expiresAt)
    | none => s'.answer n request none
  else s'.answer n request (some response)

def store (s : State) (n : ℕ) (given : Given) (expiresAt : ℕ) : State :=
  let r := s.cache.set (cacheKey given.request) given.response expiresAt
  { s with
    cache := r.2
    stored := if given.response.body.length ≤ maxBody then given :: s.stored else s.stored }.answer
      n given.request (some r.1)

end State

/-- One step, with the handler behind the middleware. -/
def step (handler : Request → Response) (s : State) : Action → Option State
  | .wait d => some { s with clock := s.clock + d }
  | .arrive n request =>
    match s.tasks n with
    | some _ => none
    | none => some (s.lookup n request)
  | .handled n =>
    match s.tasks n with
    | some (.handling request) => some (s.give n request (handler request))
    | _ => none
  | .store n =>
    match s.tasks n with
    | some (.storing given expiresAt) => some (s.store n given expiresAt)
    | _ => none
  | .cleanup => some { s with cache := s.cache.cleanup s.clock }
  | .clear => some { s with cache := s.cache.clear }

/-- An empty cache. -/
def Initial (ttl maxSize : ℕ) (s : State) : Prop :=
  s.cache = .withMaxSize ttl maxSize ∧ s.tasks = (fun _ => none) ∧ s.given = [] ∧ s.stored = [] ∧ s.answers = []

/-- The same method, URI, credentials and body. -/
structure Request.Same (p q : Request) : Prop where
  method : p.method = q.method
  uri : p.uri = q.uri
  credentials : p.credentials = q.credentials
  body : p.body = q.body

/-- There is a response, and it has the status and the body that the handler gives to the request, or gave less than the
TTL ago to the same one. -/
def Transparent (handler : Request → Response) (ttl : ℕ) (given : List Given) (a : Answer) : Prop :=
  ∃ r, a.response = some r ∧
    ((r.status = (handler a.request).status ∧ r.body = (handler a.request).body) ∨
      ∃ g ∈ given, g.request.Same a.request ∧ g.time ≤ a.time ∧ a.time < g.time + ttl ∧
        r.status = g.response.status ∧ r.body = g.response.body)

/-- The conditions: what has not expired under the key of a request was given to one with the same credentials and
body; what the handler gives as a success fits into an entry, and expires at an `Instant`. -/
def Ok (handler : Request → Response) (s : State) : Action → Prop
  | .arrive _ request =>
    ∀ entry, Lru.find s.cache.entries (cacheKey request) = some entry → s.clock < entry.expiresAt →
      ∀ g, s.stored.find? (fun g => cacheKey g.request = cacheKey request) = some g →
        g.request.credentials = request.credentials ∧ g.request.body = request.body
  | .handled n =>
    ∀ request, s.tasks n = some (.handling request) → isSuccess (handler request).status →
      (handler request).body.length ≤ maxBody ∧ s.clock + s.cache.defaultTtl ≤ maxInstant
  | _ => True

/-! ## The invariant -/

section Invariant

variable {handler : Request → Response} {ttl now n : ℕ} {cache : ResponseCache} {key : String} {s s' : State}
  {given stored : List Given} {es es' : List (String × CacheEntry)} {request : Request}

/-- Every entry has what was last stored under its key. -/
def Backed (ttl : ℕ) (stored : List Given) (es : List (String × CacheEntry)) : Prop :=
  ∀ key entry, Lru.find es key = some entry → ∃ g, stored.find? (fun g => cacheKey g.request = key) = some g ∧
    entry.response = g.response.body ∧ entry.status = g.response.status ∧ entry.expiresAt = g.time + ttl

theorem Backed.mono (h : Backed ttl stored es)
    (hsub : ∀ key entry, Lru.find es' key = some entry → Lru.find es key = some entry) : Backed ttl stored es' :=
  fun key entry hfind => h key entry (hsub key entry hfind)

section Get

variable {entry : CacheEntry} (hfind : Lru.find cache.entries key = some entry)

include hfind

theorem get_of_live (h : now < entry.expiresAt) :
    cache.get key now = (some ⟨entry.status, HeaderMap.insert entry.headers "x-cache" "HIT", entry.response⟩,
      { cache with entries := (key, entry) :: Lru.pop cache.entries key }) := by
  simp only [ResponseCache.get, hfind, if_pos h]

theorem get_of_expired (h : ¬ now < entry.expiresAt) :
    cache.get key now = (none, { cache with entries := Lru.pop cache.entries key }) := by
  simp only [ResponseCache.get, hfind, if_neg h]

end Get

theorem get_after (h : Backed ttl stored cache.entries) (key : String) (now : ℕ) :
    (cache.get key now).2.defaultTtl = cache.defaultTtl ∧ Backed ttl stored (cache.get key now).2.entries := by
  cases hfind : Lru.find cache.entries key with
  | none =>
    rw [ResponseCache.get, hfind]
    exact ⟨rfl, h⟩
  | some entry =>
    by_cases hlt : now < entry.expiresAt
    · rw [get_of_live hfind hlt]
      refine ⟨rfl, h.mono ?_⟩
      intro key' entry' hfind'
      by_cases hkey : key' = key
      · subst hkey
        rw [Lru.find_cons_self] at hfind'
        rw [hfind, hfind']
      · rw [Lru.find_cons_of_ne hkey] at hfind'
        exact (Lru.find_of_find_pop hfind').2
    · rw [get_of_expired hfind hlt]
      exact ⟨rfl, h.mono fun _ _ hfind' => (Lru.find_of_find_pop hfind').2⟩

theorem exists_of_get {r : Response} (h : (cache.get key now).1 = some r) :
    ∃ entry, Lru.find cache.entries key = some entry ∧ now < entry.expiresAt ∧ r.status = entry.status ∧
      r.body = entry.response := by
  cases hfind : Lru.find cache.entries key with
  | none =>
    rw [ResponseCache.get, hfind] at h
    cases h
  | some entry =>
    by_cases hlt : now < entry.expiresAt
    · rw [get_of_live hfind hlt] at h
      cases h
      exact ⟨entry, rfl, hlt, rfl, rfl⟩
    · rw [get_of_expired hfind hlt] at h
      cases h

theorem set_spec (h : Backed ttl stored cache.entries) {g : Given} (hfits : g.response.body.length ≤ maxBody) :
    (cache.set (cacheKey g.request) g.response (g.time + ttl)).1 = g.response ∧
      (cache.set (cacheKey g.request) g.response (g.time + ttl)).2.defaultTtl = cache.defaultTtl ∧
      Backed ttl (g :: stored) (cache.set (cacheKey g.request) g.response (g.time + ttl)).2.entries := by
  have hbytes : toBytes g.response.body maxBody = some g.response.body := if_pos hfits
  rw [ResponseCache.set, hbytes]
  refine ⟨rfl, rfl, ?_⟩
  intro key entry hfind
  by_cases hkey : key = cacheKey g.request
  · subst hkey
    rw [Lru.find_cons_self] at hfind
    obtain rfl := Option.some.inj hfind
    exact ⟨g, List.find?_cons_of_pos (by simp), rfl, rfl, rfl⟩
  · rw [Lru.find_cons_of_ne hkey] at hfind
    obtain ⟨g', hlast, hentry⟩ := h key entry (Lru.find_of_find_rest hkey hfind)
    exact ⟨g', by rw [List.find?_cons_of_neg (by simpa using Ne.symm hkey), hlast], hentry⟩

/-- The entries are backed by what the handler gave, what is being stored fits, and the answers so far are right. -/
structure Inv (handler : Request → Response) (ttl : ℕ) (s : State) : Prop where
  defaultTtl : s.cache.defaultTtl = ttl
  backed : Backed ttl s.stored s.cache.entries
  given : ∀ g ∈ s.stored, g ∈ s.given
  past : ∀ g ∈ s.given, g.time ≤ s.clock
  storing : ∀ n g expiresAt, s.tasks n = some (.storing g expiresAt) → g ∈ s.given ∧
    g.response = handler g.request ∧ g.response.body.length ≤ maxBody ∧ expiresAt = g.time + ttl
  answers : ∀ a ∈ s.answers, Transparent handler ttl s.given a

theorem Transparent.mono {a : Answer} {given' : List Given} (h : Transparent handler ttl given a)
    (hsub : ∀ g ∈ given, g ∈ given') : Transparent handler ttl given' a := by
  obtain ⟨r, hr, hnow | ⟨g, hg, hsame⟩⟩ := h
  · exact ⟨r, hr, Or.inl hnow⟩
  · exact ⟨r, hr, Or.inr ⟨g, hsub g hg, hsame⟩⟩

theorem Inv.goOn (h : Inv handler ttl s) {task : Task}
    (htask : ∀ g expiresAt, task = .storing g expiresAt → g ∈ s.given ∧ g.response = handler g.request ∧
      g.response.body.length ≤ maxBody ∧ expiresAt = g.time + ttl) : Inv handler ttl (s.goOn n task) := by
  refine ⟨h.defaultTtl, h.backed, h.given, h.past, ?_, h.answers⟩
  intro m g expiresAt hm
  rcases update_some_cases hm with ⟨-, heq⟩ | ⟨-, hold⟩
  · exact htask g expiresAt heq.symm
  · exact h.storing m g expiresAt hold

theorem Inv.answer (h : Inv handler ttl s) {response : Option Response}
    (hright : Transparent handler ttl s.given ⟨request, response, s.clock⟩) :
    Inv handler ttl (s.answer n request response) := by
  refine ⟨h.defaultTtl, h.backed, h.given, h.past, ?_, ?_⟩
  · intro m g expiresAt hm
    exact h.storing m g expiresAt (update_none_cases hm).2
  · intro a ha
    rcases List.mem_cons.mp ha with rfl | ha
    · exact hright
    · exact h.answers a ha

theorem Inv.withCache (h : Inv handler ttl s) (httl : cache.defaultTtl = s.cache.defaultTtl)
    (hbacked : Backed ttl s.stored cache.entries) : Inv handler ttl { s with cache := cache } :=
  ⟨httl.trans h.defaultTtl, hbacked, h.given, h.past, h.storing, h.answers⟩

theorem Inv.lookup (h : Inv handler ttl s) (hok : Ok handler s (.arrive n request)) :
    Inv handler ttl (s.lookup n request) := by
  obtain ⟨httl, hbacked⟩ := get_after h.backed (cacheKey request) s.clock
  have hcache := h.withCache httl hbacked
  unfold State.lookup
  cases hget : (s.cache.get (cacheKey request) s.clock).1 with
  | none =>
    simp only [hget]
    exact hcache.goOn fun g expiresAt htask => by cases htask
  | some response =>
    simp only [hget]
    apply hcache.answer
    obtain ⟨entry, hfind, hlt, hstatus, hbody⟩ := exists_of_get hget
    obtain ⟨g, hlast, hresponse, hstatus', hexpires⟩ := h.backed _ entry hfind
    obtain ⟨hcredentials, hsame⟩ := hok entry hfind hlt g hlast
    have hkey : cacheKey g.request = cacheKey request := by simpa using List.find?_some hlast
    obtain ⟨hmethod, huri⟩ := cacheKey_eq_iff.mp hkey
    have hg : g ∈ s.given := h.given g (List.mem_of_find?_eq_some hlast)
    refine ⟨response, rfl, Or.inr ⟨g, hg, ⟨hmethod, huri, hcredentials, hsame⟩, h.past g hg, ?_, ?_, ?_⟩⟩
    · rwa [← hexpires]
    · rw [hstatus, hstatus']
    · rw [hbody, hresponse]

theorem Inv.give (h : Inv handler ttl s) (htask : s.tasks n = some (.handling request))
    (hok : Ok handler s (.handled n)) : Inv handler ttl (s.give n request (handler request)) := by
  have hgiven : Inv handler ttl { s with given := ⟨request, handler request, s.clock⟩ :: s.given } := by
    refine ⟨h.defaultTtl, h.backed, fun g hg => List.mem_cons_of_mem _ (h.given g hg), ?_, ?_, ?_⟩
    · intro g hg
      rcases List.mem_cons.mp hg with rfl | hg
      · exact le_refl _
      · exact h.past g hg
    · intro m g expiresAt hm
      obtain ⟨hg, hrest⟩ := h.storing m g expiresAt hm
      exact ⟨List.mem_cons_of_mem _ hg, hrest⟩
    · intro a ha
      exact (h.answers a ha).mono fun g hg => List.mem_cons_of_mem _ hg
  unfold State.give
  by_cases hsuccess : isSuccess (handler request).status
  · obtain ⟨hfits, hinstant⟩ := hok request htask hsuccess
    have hexpiry : s.cache.expiry none s.clock = some (s.clock + s.cache.defaultTtl) := if_pos hinstant
    simp only [if_pos hsuccess, hexpiry]
    apply hgiven.goOn
    intro g expiresAt heq
    cases heq
    exact ⟨List.mem_cons_self, rfl, hfits, by rw [h.defaultTtl]⟩
  · simp only [if_neg hsuccess]
    exact hgiven.answer ⟨_, rfl, Or.inl ⟨rfl, rfl⟩⟩

theorem Inv.store (h : Inv handler ttl s) {g : Given} {expiresAt : ℕ}
    (htask : s.tasks n = some (.storing g expiresAt)) : Inv handler ttl (s.store n g expiresAt) := by
  obtain ⟨hg, hresponse, hfits, rfl⟩ := h.storing n g expiresAt htask
  obtain ⟨hreturned, httl, hbacked⟩ := set_spec h.backed hfits
  unfold State.store
  simp only [if_pos hfits, hreturned]
  have hstored : Inv handler ttl
      { s with
        cache := (s.cache.set (cacheKey g.request) g.response (g.time + ttl)).2
        stored := g :: s.stored } := by
    refine ⟨httl.trans h.defaultTtl, hbacked, ?_, h.past, h.storing, h.answers⟩
    intro g' hg'
    rcases List.mem_cons.mp hg' with rfl | hg'
    · exact hg
    · exact h.given g' hg'
  exact hstored.answer ⟨g.response, rfl, Or.inl (by rw [hresponse]; exact ⟨rfl, rfl⟩)⟩

theorem inv_step {a : Action} (h : Inv handler ttl s) (hok : Ok handler s a) (hstep : step handler s a = some s') :
    Inv handler ttl s' := by
  cases a with
  | wait d =>
    cases hstep
    refine ⟨h.defaultTtl, h.backed, h.given, ?_, h.storing, h.answers⟩
    intro g hg
    exact (h.past g hg).trans (Nat.le_add_right _ _)
  | arrive n request =>
    rw [step] at hstep
    split at hstep
    · cases hstep
    · cases hstep
      exact h.lookup hok
  | handled n =>
    rw [step] at hstep
    split at hstep
    · next request htask =>
      cases hstep
      exact h.give htask hok
    · cases hstep
  | store n =>
    rw [step] at hstep
    split at hstep
    · next g expiresAt htask =>
      cases hstep
      exact h.store htask
    · cases hstep
  | cleanup =>
    cases hstep
    refine h.withCache rfl ?_
    exact h.backed.mono fun _ _ hfind => Lru.find_of_find_foldl_pop hfind
  | clear =>
    cases hstep
    refine h.withCache rfl ?_
    intro key entry hfind
    cases hfind

end Invariant

/-- **The cache is transparent** in every run in which no entry is met with other credentials or another body, and
every success fits and expires at an `Instant`. -/
theorem transparent_of_reachable {handler : Request → Response} {ttl maxSize : ℕ} {s : State}
    (h : ReachableWhen (Initial ttl maxSize) (step handler) (Ok handler) s) :
    ∀ a ∈ s.answers, Transparent handler ttl s.given a := by
  have hinv : Inv handler ttl s := by
    refine h.invariant ?_ (fun s a s' hinv hok hstep => inv_step hinv hok hstep)
    rintro s ⟨hcache, htasks, hgiven, hstored, hanswers⟩
    refine ⟨by rw [hcache]; rfl, ?_, ?_, ?_, ?_, ?_⟩
    · rw [hcache]
      intro key entry hfind
      cases hfind
    · rw [hstored]
      exact fun g hg => by cases hg
    · rw [hgiven]
      exact fun g hg => by cases hg
    · intro n g expiresAt hn
      rw [htasks] at hn
      cases hn
    · rw [hanswers]
      exact fun a ha => by cases ha
  exact hinv.answers

/-- A handler that gives the body back. -/
def echo (request : Request) : Response := ⟨200, [], request.body⟩

/-- A request to call a method. -/
def post (body : Bytes) : Request := ⟨⟨"POST", by decide⟩, "/mcp", [], body⟩

def minute : ℕ := 60000000000

def empty : State := ⟨.withMaxSize minute 10000, 0, fun _ => none, [], [], []⟩

/-- A request has been answered, and the response stored. -/
def answered (body : Bytes) : State :=
  ((empty.lookup 0 (post body)).give 0 (post body) (echo (post body))).store 0 ⟨post body, echo (post body), 0⟩ minute

/-- The same body a second time. -/
theorem transparent_of_reachable_again : ((answered [0x61]).lookup 1 (post [0x61])).answers.length = 2 ∧
    ∀ a ∈ ((answered [0x61]).lookup 1 (post [0x61])).answers,
      Transparent echo minute ((answered [0x61]).lookup 1 (post [0x61])).given a := by
  have hempty : ReachableWhen (Initial minute 10000) (step echo) (Ok echo) empty := .init ⟨rfl, rfl, rfl, rfl, rfl⟩
  have hlookup := hempty.step (a := Action.arrive 0 (post [0x61])) (fun entry hfind => by cases hfind) rfl
  have hgive := hlookup.step (a := Action.handled 0) (by
    intro request hrequest _
    cases hrequest
    exact ⟨by decide, by decide⟩) rfl
  have hstore := hgive.step (a := Action.store 0) trivial rfl
  have hagain := hstore.step (a := Action.arrive 1 (post [0x61])) (by
    intro entry _ _ g hg
    obtain rfl := List.mem_singleton.mp (List.mem_of_find?_eq_some hg)
    exact ⟨rfl, rfl⟩) rfl
  exact ⟨rfl, transparent_of_reachable hagain⟩

/-- Two posts to one URL with different bodies. -/
theorem post_answered_with_other_body :
    ¬ ∀ s, ReachableWhen (Initial minute 10000) (step echo) (fun _ _ => True) s →
      ∀ a ∈ s.answers, Transparent echo minute s.given a := by
  intro h
  have hempty : ReachableWhen (Initial minute 10000) (step echo) (fun _ _ => True) empty :=
    .init ⟨rfl, rfl, rfl, rfl, rfl⟩
  have hlookup := hempty.step (a := Action.arrive 0 (post [0x61])) trivial rfl
  have hgive := hlookup.step (a := Action.handled 0) trivial rfl
  have hstore := hgive.step (a := Action.store 0) trivial rfl
  have hother := hstore.step (a := Action.arrive 1 (post [0x62])) trivial rfl
  obtain ⟨r, hr, ⟨-, hbody⟩ | ⟨g, hg, hsame, -⟩⟩ :=
    h _ hother ⟨post [0x62], some ⟨200, [("x-cache", "HIT")], [0x61]⟩, 0⟩ List.mem_cons_self
  · cases hr
    cases hbody
  · obtain rfl := List.mem_singleton.mp hg
    cases hsame.body

end VelocityMcp.Http.Cache
