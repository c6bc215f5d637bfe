import Mathlib.Data.Finset.Card
import VelocityMcp.Lib.HashMap
import VelocityMcp.Lib.Paths
import VelocityMcp.Resources

/-!
# ResourceStore — registering and reading resources (`resources.rs`)

`reads_last_iff`: what is read and listed is what was registered last, if no URI is registered twice.
-/

namespace VelocityMcp

open Lib

/-! ## The store -/

structure DbResourceConfig where
  query : String
  params : List String
deriving DecidableEq, Repr

structure ApiResourceConfig where
  endpoint : String
  method : String
  headers : List (String × String)
deriving DecidableEq, Repr

/-- `ResourceStore`: the list and the tables of the resources, and who has subscribed to them. -/
structure ResourceStore where
  resources : List Resource
  fileResources : Map String PathBuf
  dbResources : Map String DbResourceConfig
  apiResources : Map String ApiResourceConfig
  subscriptions : Map String (Finset String)

def maxResources : ℕ := 10000

def guessMime (ext : String) : String :=
  match ext with
  | "txt" => "text/plain"
  | "md" => "text/markdown"
  | "json" => "application/json"
  | "csv" => "text/csv"
  | "html" => "text/html"
  | "xml" => "application/xml"
  | "yaml" => "application/yaml"
  | "yml" => "application/yaml"
  | "py" => "text/x-python"
  | "rs" => "text/x-rust"
  | "js" => "application/javascript"
  | "ts" => "application/typescript"
  | _ => "application/octet-stream"

/-- `Path::extension`: what is behind the last dot of the file's name, if something is before it. -/
def extension (path : PathBuf) : Option Bytes :=
  match (components path).getLast? with
  | some (.normal name) =>
    let ext := (name.reverse.takeWhile (· ≠ 0x2e)).reverse
    if ext.length + 1 < name.length then some ext else none
  | _ => none

def mimeOf (path : PathBuf) : String := guessMime (((extension path).bind fromUtf8).getD "")

namespace ResourceStore

/-- The store of a new process. -/
def empty : ResourceStore := ⟨[], ∅, ∅, ∅, ∅⟩

variable (store : ResourceStore)

/-- A resource that is to be listed; the list has a limit. -/
def push (resource : Resource) : Except String ResourceStore :=
  if store.resources.length ≥ maxResources then
    .error s!"Resource limit reached ({maxResources}), cannot register more resources"
  else .ok { store with resources := store.resources ++ [resource] }

/-- A new entry of the list, and one in the table of the file adapter. -/
def registerFileResource (uri name description : String) (path : PathBuf) : Except String ResourceStore :=
  (store.push ⟨uri, name, description, some (mimeOf path)⟩).map fun store =>
    { store with fileResources := store.fileResources.insert uri path }

/-- The same, in the table of the database adapter. -/
def registerDbResource (uri name description query : String) (params : List String) : Except String ResourceStore :=
  (store.push ⟨uri, name, description, some "application/json"⟩).map fun store =>
    { store with dbResources := store.dbResources.insert uri ⟨query, params⟩ }

/-- The same, in the table of the API adapter. -/
def registerApiResource (uri name description endpoint method : String) (headers : List (String × String)) :
    Except String ResourceStore :=
  (store.push ⟨uri, name, description, some "application/json"⟩).map fun store =>
    { store with apiResources := store.apiResources.insert uri ⟨endpoint, method, headers⟩ }

def listResources : List Resource := store.resources

end ResourceStore

/-! ## Reading -/

structure OpenFile where
  metadata : Except String ℕ
  readToString : Except String String

/-- What is outside: the file system, the database (or what stands in for it), and the printer of JSON. -/
structure Backends where
  openFile : PathBuf → Except String OpenFile
  executeDatabaseQuery : String → DbResourceConfig → Except String ResourceReadResult
  toStringPretty : Value → String

def maxResourceSize : ℕ := 10 * 1024 * 1024

namespace Backends

variable (world : Backends)

def readFile (uri : String) (path : PathBuf) : Except String ResourceReadResult :=
  match world.openFile path with
  | .error e => .error s!"Failed to open file: {e}"
  | .ok file =>
    match file.metadata with
    | .error e => .error s!"Failed to stat file: {e}"
    | .ok len =>
      if len > maxResourceSize then .error s!"File too large: {len} bytes (max {maxResourceSize} bytes)"
      else
        match file.readToString with
        | .error e => .error s!"Failed to read file: {e}"
        | .ok content => .ok ⟨uri, mimeOf path, some content⟩

def readApi (uri : String) (config : ApiResourceConfig) : Except String ResourceReadResult :=
  .ok ⟨uri, "application/json", some (world.toStringPretty (.object [("endpoint", .string config.endpoint),
    ("headers", .object (insertAll [] (config.headers.map fun h => (h.1, .string h.2)))),
    ("method", .string config.method), ("result", .string "HTTP request would execute here")]))⟩

end Backends

/-- `ResourceStore::read_resource`: files first, then the database, then APIs. -/
def ResourceStore.readResource (world : Backends) (store : ResourceStore) (uri : String) :
    Except String ResourceReadResult :=
  match store.fileResources.lookup uri with
  | some path => world.readFile uri path
  | none =>
    match store.dbResources.lookup uri with
    | some config => world.executeDatabaseQuery uri config
    | none =>
      match store.apiResources.lookup uri with
      | some config => world.readApi uri config
      | none => .error s!"Resource not found: {uri}"

/-! ## Registrations -/

/-- What a resource is read through. -/
inductive Adapter where
  | file (path : PathBuf)
  | db (query : String) (params : List String)
  | api (endpoint method : String) (headers : List (String × String))
deriving DecidableEq, Repr

/-- What a resource gives when it is read through an adapter. -/
def Adapter.read (world : Backends) (uri : String) : Adapter → Except String ResourceReadResult
  | file path => world.readFile uri path
  | db query params => world.executeDatabaseQuery uri ⟨query, params⟩
  | api endpoint method headers => world.readApi uri ⟨endpoint, method, headers⟩

def Adapter.mimeType : Adapter → String
  | file path => mimeOf path
  | _ => "application/json"

/-- A resource with what reads it. -/
structure Registration where
  uri : String
  name : String
  description : String
  adapter : Adapter
deriving DecidableEq, Repr

def Registration.resource (r : Registration) : Resource :=
  ⟨r.uri, r.name, r.description, some r.adapter.mimeType⟩

namespace ResourceStore

/-- The function for the kind of adapter. -/
def register (store : ResourceStore) (r : Registration) : Except String ResourceStore :=
  match r.adapter with
  | .file path => store.registerFileResource r.uri r.name r.description path
  | .db query params => store.registerDbResource r.uri r.name r.description query params
  | .api endpoint method headers => store.registerApiResource r.uri r.name r.description endpoint method headers

/-- The store after these registrations; one that fails leaves it as it was. -/
def registerAll (store : ResourceStore) : List Registration → ResourceStore
  | [] => store
  | r :: rs => match store.register r with
    | .ok store' => store'.registerAll rs
    | .error _ => store.registerAll rs

/-- The registrations, one after another, that the store did not refuse. -/
def succeeded (store : ResourceStore) : List Registration → List Registration
  | [] => []
  | r :: rs => match store.register r with
    | .ok store' => r :: store'.succeeded rs
    | .error _ => store.succeeded rs

/-- The table of an adapter has it for the URI. -/
def Holds (store : ResourceStore) (uri : String) : Adapter → Prop
  | .file path => store.fileResources.lookup uri = some path
  | .db query params => store.dbResources.lookup uri = some ⟨query, params⟩
  | .api endpoint method headers => store.apiResources.lookup uri = some ⟨endpoint, method, headers⟩

section Register

variable {store store' : ResourceStore} {r : Registration} {rs regs : List Registration} {uri : String} {a : Adapter}

theorem push_map_eq_ok {resource : Resource} {f : ResourceStore → ResourceStore}
    (h : (store.push resource).map f = .ok store') :
    store' = f { store with resources := store.resources ++ [resource] } := by
  rw [push] at h
  split_ifs at h
  · cases h
  · exact (Except.ok.inj h).symm

/-- **What a successful registration does**: the resource is listed last, and in the table of its adapter. -/
theorem resources_of_register (h : store.register r = .ok store') :
    store'.resources = store.resources ++ [r.resource] ∧ store'.Holds r.uri r.adapter := by
  obtain ⟨uri, name, description, adapter⟩ := r
  cases adapter <;> obtain rfl := push_map_eq_ok h <;> exact ⟨rfl, AList.lookup_insert _⟩

theorem holds_of_register (h : store.register r = .ok store') (ha : store'.Holds uri a) :
    (uri = r.uri ∧ a = r.adapter) ∨ store.Holds uri a := by
  obtain ⟨key, name, description, adapter⟩ := r
  cases adapter with
  | file path =>
    obtain rfl := push_map_eq_ok h
    cases a with
    | file path' =>
      rcases Map.lookup_insert_some ha with ⟨rfl, rfl⟩ | ⟨-, hold⟩
      · exact .inl ⟨rfl, rfl⟩
      · exact .inr hold
    | db query params => exact .inr ha
    | api endpoint method headers => exact .inr ha
  | db query params =>
    obtain rfl := push_map_eq_ok h
    cases a with
    | file path => exact .inr ha
    | db query' params' =>
      rcases Map.lookup_insert_some ha with ⟨rfl, heq⟩ | ⟨-, hold⟩
      · obtain ⟨rfl, rfl⟩ := DbResourceConfig.mk.inj heq
        exact .inl ⟨rfl, rfl⟩
      · exact .inr hold
    | api endpoint method headers => exact .inr ha
  | api endpoint method headers =>
    obtain rfl := push_map_eq_ok h
    cases a with
    | file path => exact .inr ha
    | db query params => exact .inr ha
    | api endpoint' method' headers' =>
      rcases Map.lookup_insert_some ha with ⟨rfl, heq⟩ | ⟨-, hold⟩
      · obtain ⟨rfl, rfl, rfl⟩ := ApiResourceConfig.mk.inj heq
        exact .inl ⟨rfl, rfl⟩
      · exact .inr hold

theorem holds_register_of_ne (h : store.register r = .ok store') (hne : uri ≠ r.uri) (ha : store.Holds uri a) :
    store'.Holds uri a := by
  obtain ⟨key, name, description, adapter⟩ := r
  cases adapter <;> obtain rfl := push_map_eq_ok h <;> cases a <;>
    first
    | exact ha
    | exact (AList.lookup_insert_ne hne).trans ha

/-- The list and the tables are those of the registrations. -/
structure Explains (store : ResourceStore) (done : List Registration) : Prop where
  resources : store.resources = done.map Registration.resource
  origin : ∀ {uri a}, store.Holds uri a → ∃ r ∈ done, r.uri = uri ∧ r.adapter = a
  held : ∀ r ∈ done, ∃ a, store.Holds r.uri a

theorem explains_empty : Explains empty [] where
  resources := rfl
  origin {uri a} h := by cases a <;> cases h
  held r h := nomatch h

theorem Explains.register (hstore : Explains store rs) (h : store.register r = .ok store') :
    Explains store' (rs ++ [r]) where
  resources := by rw [(resources_of_register h).1, hstore.resources, List.map_append, List.map_singleton]
  origin ha := by
    rcases holds_of_register h ha with ⟨rfl, rfl⟩ | hold
    · exact ⟨r, List.mem_append_right _ List.mem_cons_self, rfl, rfl⟩
    · obtain ⟨q, hq, hqa⟩ := hstore.origin hold
      exact ⟨q, List.mem_append_left _ hq, hqa⟩
  held q hq := by
    by_cases hqr : q.uri = r.uri
    · exact ⟨r.adapter, hqr ▸ (resources_of_register h).2⟩
    · rcases List.mem_append.mp hq with hq | hq
      · obtain ⟨a, ha⟩ := hstore.held q hq
        exact ⟨a, holds_register_of_ne h hqr ha⟩
      · exact absurd (congrArg Registration.uri (List.mem_singleton.mp hq)) hqr

theorem Explains.registerAll (hstore : Explains store rs) (regs : List Registration) :
    Explains (store.registerAll regs) (rs ++ store.succeeded regs) := by
  induction regs generalizing store rs with
  | nil =>
    rw [ResourceStore.registerAll, succeeded, List.append_nil]
    exact hstore
  | cons r regs ih =>
    rw [ResourceStore.registerAll, succeeded]
    cases h : store.register r with
    | error e => exact ih hstore
    | ok store' =>
      have hrest := ih (hstore.register h)
      rwa [List.append_assoc, List.singleton_append] at hrest

/-! ### What is read and listed -/

/-- With one registration for a URI, its adapter is the only one that has it. -/
theorem Explains.holds_iff (hstore : Explains store rs) (hnodup : (rs.map Registration.uri).Nodup) (hr : r ∈ rs) :
    store.Holds r.uri a ↔ a = r.adapter := by
  have honly : ∀ {a}, store.Holds r.uri a → a = r.adapter := by
    intro a ha
    obtain ⟨q, hq, huri, rfl⟩ := hstore.origin ha
    rw [List.inj_on_of_nodup_map hnodup hq hr huri]
  refine ⟨honly, ?_⟩
  rintro rfl
  obtain ⟨b, hb⟩ := hstore.held r hr
  exact honly hb ▸ hb

theorem readResource_of_holds {world : Backends} {b : Adapter} (h : ∀ a, store.Holds uri a ↔ a = b) :
    store.readResource world uri = b.read world uri := by
  have hfile : ∀ path, store.fileResources.lookup uri = some path → .file path = b := fun path hp =>
    (h (.file path)).mp hp
  have hdb : ∀ config, store.dbResources.lookup uri = some config → .db config.query config.params = b :=
    fun config hc => (h (.db config.query config.params)).mp hc
  have hb := (h b).mpr rfl
  rw [readResource]
  cases b with
  | file path =>
    have hpath : store.fileResources.lookup uri = some path := hb
    rw [hpath]
    rfl
  | db query params =>
    have hconfig : store.dbResources.lookup uri = some ⟨query, params⟩ := hb
    cases hf : store.fileResources.lookup uri with
    | some path => exact nomatch hfile path hf
    | none =>
      rw [hconfig]
      rfl
  | api endpoint method headers =>
    have hconfig : store.apiResources.lookup uri = some ⟨endpoint, method, headers⟩ := hb
    cases hf : store.fileResources.lookup uri with
    | some path => exact nomatch hfile path hf
    | none =>
      cases hd : store.dbResources.lookup uri with
      | some config => exact nomatch hdb config hd
      | none =>
        rw [hconfig]
        rfl

/-- **What is read and listed for a URI is what was registered last for it.** -/
def ReadsLast (world : Backends) (regs : List Registration) : Prop :=
  ∀ uri r, ((empty.succeeded regs).filter (·.uri = uri)).getLast? = some r →
    (empty.registerAll regs).readResource world uri = r.adapter.read world uri ∧
      (empty.registerAll regs).listResources.filter (·.uri = uri) = [r.resource]

theorem Explains.filter_resources (hstore : Explains store rs) (uri : String) :
    store.resources.filter (·.uri = uri) = (rs.filter (·.uri = uri)).map Registration.resource := by
  rw [hstore.resources, List.filter_map]
  rfl

theorem filter_eq_singleton (hnodup : (rs.map Registration.uri).Nodup) (hr : r ∈ rs) :
    rs.filter (·.uri = r.uri) = [r] := by
  have hfilter : (rs.filter (·.uri = r.uri)).Nodup := (hnodup.of_map _).filter _
  have hmem : ∀ q ∈ rs.filter (·.uri = r.uri), q = r := by
    intro q hq
    obtain ⟨hq, huri⟩ := List.mem_filter.mp hq
    exact List.inj_on_of_nodup_map hnodup hq hr (of_decide_eq_true huri)
  have hin : r ∈ rs.filter (·.uri = r.uri) := List.mem_filter.mpr ⟨hr, decide_eq_true rfl⟩
  cases hlist : rs.filter (·.uri = r.uri) with
  | nil => exact absurd (hlist ▸ hin) List.not_mem_nil
  | cons q qs =>
    rw [hlist] at hfilter hmem
    obtain rfl := hmem q List.mem_cons_self
    cases qs with
    | nil => rfl
    | cons q' qs =>
      obtain rfl := hmem q' (List.mem_cons_of_mem _ List.mem_cons_self)
      exact absurd List.mem_cons_self (List.nodup_cons.mp hfilter).1

/-- **Registered resources are what is read exactly if** no two successful registrations are for the same URI. -/
theorem reads_last_iff (world : Backends) (regs : List Registration) :
    ReadsLast world regs ↔ ((empty.succeeded regs).map Registration.uri).Nodup := by
  have hstore : Explains (empty.registerAll regs) (empty.succeeded regs) := explains_empty.registerAll regs
  constructor
  · intro h
    rw [List.nodup_iff_count_le_one]
    intro uri
    have hcount : ((empty.succeeded regs).map Registration.uri).count uri =
        ((empty.succeeded regs).filter (·.uri = uri)).length := by
      rw [List.count, List.countP_map, List.countP_eq_length_filter]
      congr 2
    rw [hcount]
    cases hlast : ((empty.succeeded regs).filter (·.uri = uri)).getLast? with
    | none =>
      rw [List.getLast?_eq_none_iff.mp hlast]
      exact Nat.zero_le 1
    | some r =>
      have hlisted := congrArg List.length (h uri r hlast).2
      rw [listResources, hstore.filter_resources, List.length_map, List.length_singleton] at hlisted
      exact hlisted.le
  · intro hnodup uri r hlast
    have hin := List.mem_of_getLast? hlast
    obtain ⟨hr, huri⟩ := List.mem_filter.mp hin
    obtain rfl := of_decide_eq_true huri
    refine ⟨readResource_of_holds fun a => hstore.holds_iff hnodup hr, ?_⟩
    rw [listResources, hstore.filter_resources, filter_eq_singleton hnodup hr, List.map_singleton]

/-- A file, and then an API for the same URI: the file is still read, and the URI is listed twice. -/
theorem reads_first : ¬∀ world regs, ReadsLast world regs := by
  intro h
  have hlaw := h ⟨fun _ => .error "no such file", fun _ _ => .error "no database", fun _ => ""⟩
    [⟨"res://a", "a", "a file", .file [0x61]⟩, ⟨"res://a", "a", "an API", .api "https://a.example" "GET" []⟩]
    "res://a" ⟨"res://a", "a", "an API", .api "https://a.example" "GET" []⟩ rfl
  exact nomatch hlaw.1

end Register

end ResourceStore

end VelocityMcp
