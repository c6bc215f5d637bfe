import VelocityMcp.Lib.Stamps
import VelocityMcp.NdaNative.ToolsList
import VelocityMcp.Registry.Convert

/-!
# Registry.ToolsCache — the cached tool list and its cached encoding, atomic step by atomic step

`get_tools`, `register_tool_lazy`, `load_plugins` and the two registrations of `cache_nmcp_frame` (`registry.rs`), with
`encoded_tools_list_result` (`nda_native.rs`).  Any thread may take the next step.  A step reads or writes one thing
that threads share: the generation, one of the caches, `CACHED_TOOLS`, or a registry under its lock.  A registration
changes its registry in one step and advances the generation in another, and holds the lock from the one to the other.
`load_plugins` reads the directory before it takes the lock.

`settled` has the registries as they were when the generation had each of its values, and `registered` the
registrations that have advanced it; `owed` has, for a thread, those that it found when its call started.  The loads of
plugins are numbered as they begin.
-/

namespace VelocityMcp.Registry

open Lib NdaNative

/-! ## The machine -/

/-- The registries behind locks. -/
inductive Part where
  | converted
  | macroTools
  | plugins
deriving DecidableEq, Repr

def Part.Content : Part → Type
  | .converted => ConvertedTools
  | .macroTools => List Tool
  | .plugins => ℕ × List (List ManifestTool)

/-- What they hold. -/
abbrev Contents := ∀ p : Part, p.Content

def Contents.with (v : Contents) (csharp : List Tool) : Registries :=
  { csharp, converted := v .converted, macroTools := v .macroTools, plugins := Prod.snd (v .plugins) }

def noContents : Contents
  | .converted => noTools.converted
  | .macroTools => []
  | .plugins => (0, [])

inductive Registration where
  /-- a tool of a macro, or a converted one -/
  | tool (name : String)
  /-- the tools of the C# engine -/
  | csharp (tools : List Tool)
  /-- what this load of plugins has read -/
  | plugins (load : ℕ) (plugins : List (List ManifestTool))

/-- Who calls `get_tools`. -/
inductive Caller where
  | client
  /-- `encoded_tools_list_result`, which has loaded the generation -/
  | encoder (gen : UInt64)
  /-- `cache_nmcp_frame` -/
  | converter (toolName : String)

/-- Where a thread is. -/
inductive Pc where
  | idle
  /-- in `get_tools`, about to load the generation -/
  | load (c : Caller)
  /-- about to look at `TOOLS_CACHE` -/
  | lookup (c : Caller) (gen : UInt64)
  /-- about to look at `CACHED_TOOLS` -/
  | csharp (c : Caller) (gen : UInt64)
  /-- the C# engine is asked -/
  | discover (c : Caller) (gen : UInt64)
  /-- `CACHED_TOOLS` was set; about to advance the generation -/
  | announce (c : Caller) (gen : UInt64) (csharp : List Tool)
  /-- about to read a registry -/
  | read (c : Caller) (gen : UInt64) (csharp : List Tool) (view : Contents) (p : Part)
  /-- about to store the list -/
  | store (c : Caller) (gen : UInt64) (tools : List Tool)
  /-- about to return it -/
  | listed (c : Caller) (tools : List Tool)
  /-- in `encoded_tools_list_result`, about to take the lock -/
  | encode
  /-- about to load the generation and to look at `TOOLS_LIST_CACHE` -/
  | encodeLookup
  /-- about to load the generation again and to return the bytes -/
  | encodeStore (gen : UInt64) (bytes : Bytes)
  /-- in `register_tool_lazy`, about to take the lock -/
  | registerTool (t : Tool)
  /-- in `load_plugins`, about to read the directory -/
  | readDirectory (load : ℕ)
  /-- about to take the lock -/
  | loadPlugins (load : ℕ) (plugins : List (List ManifestTool))
  /-- in `cache_nmcp_frame`, about to enter the frame -/
  | convert (toolName : String)
  /-- about to take the lock of the converted tools -/
  | insertTool (t : Tool)
  /-- a registry has changed and is locked; about to advance the generation -/
  | bump (p : Part) (r : Registration)

variable {ι : Type}

/-- The shared variables of the registry, its two locks, and where every thread is. -/
structure State (ι : Type) where
  generation : UInt64
  toolsCache : Option (UInt64 × List Tool)
  encodedCache : Option (UInt64 × Bytes)
  encoderLocked : Bool
  cachedTools : Option (List Tool)
  contents : Contents
  loads : ℕ
  locked : Part → Bool
  threads : ι → Pc
  settled : List Contents
  registered : List Registration
  owed : ι → List Registration

/-- Nothing is cached, and there are no tools but the built-in ones. -/
def State.initial : State ι :=
  { generation := 0, toolsCache := none, encodedCache := none, encoderLocked := false, cachedTools := none,
    contents := noContents, loads := 0, locked := fun _ => false, threads := fun _ => .idle, settled := [noContents],
    registered := [], owed := fun _ => [] }

section Step

variable [DecidableEq ι]

def State.goto (s : State ι) (i : ι) (pc : Pc) : State ι :=
  { s with threads := Function.update s.threads i pc }

/-- A call starts that will list the tools. -/
def State.start (s : State ι) (i : ι) (pc : Pc) : State ι :=
  { s.goto i pc with owed := Function.update s.owed i s.registered }

/-- `bump_registry_generation`, for these registrations. -/
def State.advance (s : State ι) (settled : Contents) (registered : List Registration) : State ι :=
  { s with generation := s.generation + 1, settled := s.settled ++ [settled]
           registered := registered ++ s.registered }

/-- A registry takes a new content, and stays locked. -/
def State.change (s : State ι) (p : Part) (content : p.Content) : State ι :=
  { s with contents := Function.update s.contents p content, locked := Function.update s.locked p true }

def State.macroTools (s : State ι) : List Tool := s.contents .macroTools

def State.converted (s : State ι) : ConvertedTools := s.contents .converted

/-- The load that stored last, and what it read. -/
def State.plugins (s : State ι) : ℕ × List (List ManifestTool) := s.contents .plugins

/-- The registries when the generation last advanced. -/
def State.last (s : State ι) : Contents := s.settled.getLastD noContents

/-- The bytes that are returned for a list; an encoding that fails is logged, and what was written is returned. -/
def encodedTools (tools : List Tool) : Bytes := (encodeToolsListResult tools).bytes

def afterRead (c : Caller) (gen : UInt64) (csharp : List Tool) (view : Contents) : Part → Pc
  | .converted => .read c gen csharp view .macroTools
  | .macroTools => .read c gen csharp view .plugins
  | .plugins => .store c gen (listTools (view.with csharp))

/-- The next atomic step of a thread; `found` is what the C# engine answers, if it is asked. -/
def State.runThread (s : State ι) (i : ι) (found : Except String (List Tool)) : Option (State ι) :=
  match s.threads i with
  | .idle => none
  | .load c => some (s.goto i (.lookup c s.generation))
  | .lookup c gen =>
    match s.toolsCache with
    | some (cachedGen, tools) =>
      if cachedGen = gen then some (s.goto i (.listed c tools)) else some (s.goto i (.csharp c gen))
    | none => some (s.goto i (.csharp c gen))
  | .csharp c gen =>
    match s.cachedTools with
    | some csharp => some (s.goto i (.read c gen csharp noContents .converted))
    | none => some (s.goto i (.discover c gen))
  | .discover c gen =>
    match found, s.cachedTools with
    | .ok csharp, none => some ({ s with cachedTools := some csharp }.goto i (.announce c gen csharp))
    | .ok csharp, some _ => some (s.goto i (.read c gen csharp noContents .converted))
    | .error _, none => some ({ s with cachedTools := some [] }.goto i (.read c gen [] noContents .converted))
    | .error _, some _ => some (s.goto i (.read c gen [] noContents .converted))
  | .announce c gen csharp =>
    some ((s.advance s.last [.csharp csharp]).goto i (.read c gen csharp noContents .converted))
  | .read c gen csharp view p =>
    if s.locked p then none
    else some (s.goto i (afterRead c gen csharp (Function.update view p (s.contents p)) p))
  | .store c gen tools => some ({ s with toolsCache := some (gen, tools) }.goto i (.listed c tools))
  | .listed c tools =>
    match c with
    | .client => some (s.goto i .idle)
    | .encoder gen => some (s.goto i (.encodeStore gen (encodedTools tools)))
    | .converter toolName => some (s.goto i (.insertTool (convertedTool tools toolName)))
  | .encode => if s.encoderLocked then none else some ({ s with encoderLocked := true }.goto i .encodeLookup)
  | .encodeLookup =>
    match s.encodedCache with
    | some (gen, _) =>
      if gen = s.generation then some ({ s with encoderLocked := false }.goto i .idle)
      else some (s.goto i (.load (.encoder s.generation)))
    | none => some (s.goto i (.load (.encoder s.generation)))
  | .encodeStore gen bytes =>
    if s.generation = gen then
      some ({ s with encodedCache := some (gen, bytes), encoderLocked := false }.goto i .idle)
    else some ({ s with encoderLocked := false }.goto i .idle)
  | .registerTool t =>
    if s.locked .macroTools then none
    else if ∃ u ∈ s.macroTools, u.name = t.name then
      some ({ s with registered := .tool t.name :: s.registered }.goto i .idle)
    else some ((s.change .macroTools (s.macroTools ++ [t])).goto i (.bump .macroTools (.tool t.name)))
  | .readDirectory _ => none
  | .loadPlugins load plugins =>
    if s.locked .plugins then none
    else some ((s.change .plugins (load, plugins)).goto i (.bump .plugins (.plugins load plugins)))
  | .convert toolName => some ((s.advance s.last []).start i (.load (.converter toolName)))
  | .insertTool t =>
    if s.locked .converted then none
    else some ((s.change .converted (s.converted.insert t)).goto i (.bump .converted (.tool t.name)))
  | .bump p r =>
    let settled := Function.update s.last p (s.contents p)
    let s := s.advance settled [r]
    some ({ s with locked := Function.update s.locked p false }.goto i .idle)

/-- The calls. -/
inductive Request where
  | getTools
  | encodedToolsListResult
  | registerToolLazy (t : Tool)
  | loadPlugins
  | cacheNmcpFrame (toolName : String)

/-- A thread's next step; discoveries and directory reads come with what they find. -/
inductive Action (ι : Type) where
  | call (i : ι) (r : Request)
  | run (i : ι) (found : Except String (List Tool))
  /-- a load reads these plugins in the directory -/
  | found (i : ι) (plugins : List (List ManifestTool))

def State.call (s : State ι) (i : ι) : Request → State ι
  | .getTools => s.start i (.load .client)
  | .encodedToolsListResult => s.start i .encode
  | .registerToolLazy t => s.goto i (.registerTool t)
  | .loadPlugins => { s with loads := s.loads + 1 }.goto i (.readDirectory (s.loads + 1))
  | .cacheNmcpFrame toolName => s.goto i (.convert toolName)

/-- One atomic step of one thread. -/
def State.step (s : State ι) : Action ι → Option (State ι)
  | .call i r =>
    match s.threads i with
    | .idle => some (s.call i r)
    | _ => none
  | .run i found => s.runThread i found
  | .found i plugins =>
    match s.threads i with
    | .readDirectory load => some (s.goto i (.loadPlugins load plugins))
    | _ => none

end Step

/-! ## What the cache promises -/

/-- The list has what was registered; the plugins of a load may have been replaced by those of one that began later. -/
def State.Contains (s : State ι) (tools : List Tool) : Registration → Prop
  | .tool name => name ∈ tools.map Tool.name
  | .csharp csharp => ∀ t ∈ csharp, t.name ∉ deprecatedNames → t.name ∈ tools.map Tool.name
  | .plugins load plugins => ∃ v ∈ s.settled, (load < Prod.fst (v .plugins) ∨ v .plugins = (load, plugins)) ∧
      ∀ t ∈ pluginsToRegistryTools (Prod.snd (v .plugins)), t.name ∈ tools.map Tool.name

/-- What a call of `get_tools` may read of the registries: what they hold, or held before a change under way. -/
def State.Visible (s : State ι) (view : Contents) : Prop :=
  ∀ p, view p = s.contents p ∨ (s.locked p = true ∧ view p = s.last p)

/-- `get_tools` could return this list now: a call does, or the list is cached, or a call may read what it lists. -/
def State.CouldReturn (s : State ι) (tools : List Tool) : Prop :=
  (∃ i c, s.threads i = .listed c tools) ∨ s.toolsCache = some (s.generation, tools) ∨
    ∃ csharp view, tools = listTools (view.with csharp) ∧ s.Visible view ∧
      ∀ found, s.cachedTools = some found → csharp = found

/-- The bytes that a call of `encoded_tools_list_result` has at this moment: the cached ones, if it finds them, or
those of the list that `get_tools` returns to it. -/
def State.encodes (s : State ι) (i : ι) : Option Bytes :=
  match s.threads i with
  | .encodeLookup =>
    match s.encodedCache with
    | some (gen, bytes) => if gen = s.generation then some bytes else none
    | none => none
  | .listed (.encoder _) tools => some (encodedTools tools)
  | _ => none

/-- A list that is returned has all that was registered before the call started; an encoding is that of such a list,
and of one that `get_tools` could return at the moment. -/
structure State.Coherent (s : State ι) : Prop where
  complete : ∀ i c tools, s.threads i = .listed c tools → ∀ r ∈ s.owed i, s.Contains tools r
  current : ∀ i bytes, s.encodes i = some bytes →
    ∃ tools, bytes = encodedTools tools ∧ s.CouldReturn tools ∧ ∀ r ∈ s.owed i, s.Contains tools r

/-- The generation has not come to its last value, a discovery that ends when `CACHED_TOOLS` is set has found what is set
there (an error counts as no tools), and plugins are stored only over those of loads that began earlier. -/
def State.Alike (s : State ι) : Action ι → Prop
  | .call _ _ => True
  | .run i found => s.generation.toNat + 1 < 2 ^ 64 ∧
      (∀ c gen csharp, s.threads i = .discover c gen → s.cachedTools = some csharp →
        csharp = found.toOption.getD []) ∧
      ∀ load plugins, s.threads i = .loadPlugins load plugins → s.plugins.1 < load
  | .found _ _ => True

/-! ## The invariants -/

/-- The registry has what was registered, or the plugins of a load that began later. -/
def Part.Has : (p : Part) → p.Content → Registration → Prop
  | .converted, (c : ConvertedTools), .tool name => ∃ e ∈ c.entries, e.1 = name
  | .macroTools, (tools : List Tool), .tool name => ∃ t ∈ tools, t.name = name
  | .plugins, (c : ℕ × List (List ManifestTool)), .plugins load found => load < c.1 ∨ c = (load, found)
  | _, _, _ => False

/-- The value of the generation, if it has not wrapped. -/
def State.now (s : State ι) : ℕ := s.settled.length - 1

/-- A registry has had it since the generation `g`. -/
def State.Kept (s : State ι) (g : ℕ) (r : Registration) : Prop :=
  ∃ p, ∀ h v, g ≤ h → s.settled[h]? = some v → Part.Has p (v p) r

/-- What a call that loads the generation `g` or a later one will find registered. -/
def State.Known (s : State ι) (g : ℕ) : Registration → Prop
  | .csharp csharp => s.cachedTools = some csharp
  | r => s.Kept g r

/-- The list was made from registries as they were since the generation `g`. -/
def State.Made (s : State ι) (g : ℕ) (tools : List Tool) : Prop :=
  ∃ csharp view, s.cachedTools = some csharp ∧ tools = listTools (Contents.with view csharp) ∧
    ∀ p, ReadSince s.settled g view p

/-- What has the generation `g`, loaded in a call, to do with what the call has to list. -/
structure State.Loaded (s : State ι) (owed : List Registration) (c : Caller) (g : ℕ) : Prop where
  le_now : g ≤ s.now
  known : ∀ r ∈ owed, s.Known g r
  encoder : ∀ gen, c = .encoder gen → gen.toNat ≤ g

def Part.readBefore : Part → List Part
  | .converted => []
  | .macroTools => [.converted]
  | .plugins => [.converted, .macroTools]

def State.ThreadOk (s : State ι) (owed : List Registration) : Pc → Prop
  | .load c => (∀ r ∈ owed, s.Known s.now r) ∧ ∀ gen, c = .encoder gen → gen.toNat ≤ s.now
  | .lookup c gen => s.Loaded owed c gen.toNat
  | .csharp c gen => s.Loaded owed c gen.toNat
  | .discover c gen => s.Loaded owed c gen.toNat
  | .announce c gen csharp => s.Loaded owed c gen.toNat ∧ s.cachedTools = some csharp
  | .read c gen csharp view p => s.Loaded owed c gen.toNat ∧ s.cachedTools = some csharp ∧
      ∀ q ∈ p.readBefore, ReadSince s.settled gen.toNat view q
  | .store c gen tools => s.Loaded owed c gen.toNat ∧ s.Made gen.toNat tools
  | .listed c tools => ∃ g, s.Loaded owed c g ∧ s.Made g tools
  | .encode => ∀ r ∈ owed, s.Known s.now r
  | .encodeLookup => ∀ r ∈ owed, s.Known s.now r
  | .encodeStore gen bytes => ∃ tools, bytes = encodedTools tools ∧ s.Made gen.toNat tools
  | .bump p r => Part.Has p (s.contents p) r
  | _ => True

structure State.Inv (s : State ι) : Prop where
  generation : s.generation.toNat + 1 = s.settled.length
  unlocked : ∀ p, s.locked p = false → s.contents p = s.last p
  grows : ∀ p r, Part.Has p (s.last p) r → Part.Has p (s.contents p) r
  registered : ∀ r ∈ s.registered, s.Known s.now r
  toolsCache : ∀ gen tools, s.toolsCache = some (gen, tools) → s.Made gen.toNat tools
  encodedCache : ∀ gen bytes, s.encodedCache = some (gen, bytes) →
    ∃ tools, bytes = encodedTools tools ∧ s.Made gen.toNat tools
  threads : ∀ i, s.ThreadOk (s.owed i) (s.threads i)

/-! ### What stays true -/

/-- The shared state may have become this. -/
structure State.Later (s s' : State ι) : Prop where
  cachedTools : ∀ csharp, s.cachedTools = some csharp → s'.cachedTools = some csharp
  settled : s'.settled = s.settled ∨ ∃ v, s'.settled = s.settled ++ [v] ∧
    ∀ p r, Part.Has p (s.last p) r → Part.Has p (v p) r
  contents : ∀ p r, Part.Has p (s.contents p) r → Part.Has p (s'.contents p) r

section Later

variable {s s' : State ι} {g : ℕ} {owed : List Registration}

theorem getLast_settled (hpos : s.settled ≠ []) : s.settled.getLast? = some s.last := by
  rw [State.last, List.getLastD_eq_getLast?]
  cases hlast : s.settled.getLast? with
  | none => exact absurd (List.getLast?_eq_none_iff.mp hlast) hpos
  | some v => rw [Option.getD_some]

theorem State.Later.now_le (h : s.Later s') : s.now ≤ s'.now := by
  unfold State.now
  rcases h.settled with heq | ⟨v, heq, -⟩
  · rw [heq]
  · rw [heq, List.length_append]
    omega

theorem State.Kept.later (hlater : s.Later s') (hpos : s.settled ≠ []) {r : Registration} (hg : g ≤ s.now)
    (h : s.Kept g r) : s'.Kept g r := by
  obtain ⟨p, hp⟩ := h
  refine ⟨p, fun n w hn hw => ?_⟩
  rcases hlater.settled with heq | ⟨v, heq, hgrows⟩
  · exact hp n w hn (heq ▸ hw)
  · rw [heq, List.getElem?_append] at hw
    split_ifs at hw with hlt
    · exact hp n w hn hw
    · have hlast := hp s.now s.last hg (List.getLast?_eq_getElem? ▸ getLast_settled hpos)
      have hvw : v = w := by
        obtain ⟨_, hvw⟩ := List.getElem?_eq_some_iff.mp hw
        rwa [List.getElem_singleton] at hvw
      exact hvw ▸ hgrows p r hlast

theorem State.Known.later (hlater : s.Later s') (hpos : s.settled ≠ []) {r : Registration} (hg : g ≤ s.now)
    (h : s.Known g r) : s'.Known g r := by
  cases r with
  | csharp csharp => exact hlater.cachedTools csharp h
  | tool name => exact State.Kept.later hlater hpos hg h
  | plugins load plugins => exact State.Kept.later hlater hpos hg h

theorem State.Known.mono {g' : ℕ} {r : Registration} (h : s.Known g r) (hle : g ≤ g') : s.Known g' r := by
  have hkept : s.Kept g r → s.Kept g' r := fun ⟨p, hp⟩ => ⟨p, fun n v hn hv => hp n v (le_trans hle hn) hv⟩
  cases r with
  | csharp csharp => exact h
  | tool name => exact hkept h
  | plugins load plugins => exact hkept h

theorem State.Made.later (hlater : s.Later s') {tools : List Tool} (h : s.Made g tools) : s'.Made g tools := by
  obtain ⟨csharp, view, hcsharp, htools, hread⟩ := h
  refine ⟨csharp, view, hlater.cachedTools csharp hcsharp, htools, fun p => ?_⟩
  rcases hlater.settled with heq | ⟨v, heq, -⟩
  · exact heq ▸ hread p
  · exact heq ▸ (hread p).append [v]

theorem State.Made.mono {g' : ℕ} {tools : List Tool} (h : s.Made g tools) (hle : g' ≤ g) : s.Made g' tools := by
  obtain ⟨csharp, view, hcsharp, htools, hread⟩ := h
  exact ⟨csharp, view, hcsharp, htools, fun p => (hread p).mono hle⟩

theorem State.Loaded.later (hlater : s.Later s') (hpos : s.settled ≠ []) {c : Caller} (h : s.Loaded owed c g) :
    s'.Loaded owed c g :=
  ⟨le_trans h.le_now hlater.now_le, fun r hr => (h.known r hr).later hlater hpos h.le_now, h.encoder⟩

theorem State.known_now_later (hlater : s.Later s') (hpos : s.settled ≠ []) (h : ∀ r ∈ owed, s.Known s.now r) :
    ∀ r ∈ owed, s'.Known s'.now r :=
  fun r hr => ((h r hr).later hlater hpos le_rfl).mono hlater.now_le

theorem State.ThreadOk.later (hlater : s.Later s') (hpos : s.settled ≠ []) {pc : Pc} (h : s.ThreadOk owed pc) :
    s'.ThreadOk owed pc := by
  cases pc with
  | load c => exact ⟨State.known_now_later hlater hpos h.1, fun gen hc => le_trans (h.2 gen hc) hlater.now_le⟩
  | lookup c gen => exact State.Loaded.later hlater hpos h
  | csharp c gen => exact State.Loaded.later hlater hpos h
  | discover c gen => exact State.Loaded.later hlater hpos h
  | announce c gen csharp => exact ⟨h.1.later hlater hpos, hlater.cachedTools csharp h.2⟩
  | read c gen csharp view p =>
    refine ⟨h.1.later hlater hpos, hlater.cachedTools csharp h.2.1, fun q hq => ?_⟩
    rcases hlater.settled with heq | ⟨v, heq, -⟩
    · exact heq ▸ h.2.2 q hq
    · exact heq ▸ (h.2.2 q hq).append [v]
  | store c gen tools => exact ⟨h.1.later hlater hpos, h.2.later hlater⟩
  | listed c tools =>
    obtain ⟨g, hloaded, hmade⟩ := h
    exact ⟨g, hloaded.later hlater hpos, hmade.later hlater⟩
  | encode => exact State.known_now_later hlater hpos h
  | encodeLookup => exact State.known_now_later hlater hpos h
  | encodeStore gen bytes =>
    obtain ⟨tools, hbytes, hmade⟩ := h
    exact ⟨tools, hbytes, hmade.later hlater⟩
  | bump p r => exact hlater.contents p r h
  | _ => trivial

end Later

/-! ### The writes -/

section Writes

variable {s s' : State ι}

theorem State.Inv.settled_ne_nil (hinv : s.Inv) : s.settled ≠ [] := by
  intro hnil
  have hlen := hinv.generation
  rw [hnil, List.length_nil] at hlen
  omega

theorem State.Inv.now_eq (hinv : s.Inv) : s.generation.toNat = s.now := by
  have hlen := hinv.generation
  unfold State.now
  omega

theorem State.last_eq {settled : Contents} (h : s.settled.getLast? = some settled) : s.last = settled := by
  rw [State.last, List.getLastD_eq_getLast?, h, Option.getD_some]

/-- A write keeps the invariant if the new values are right; the threads stay where they are. -/
theorem State.Inv.write (hinv : s.Inv) (hlater : s.Later s') (hthreads : s'.threads = s.threads)
    (howed : s'.owed = s.owed) (hgeneration : s'.generation.toNat + 1 = s'.settled.length)
    (hunlocked : ∀ p, s'.locked p = false → s'.contents p = s'.last p)
    (hgrows : ∀ p r, Part.Has p (s'.last p) r → Part.Has p (s'.contents p) r)
    (hregistered : ∀ r ∈ s'.registered, r ∈ s.registered ∨ s'.Known s'.now r)
    (htools : ∀ gen tools, s'.toolsCache = some (gen, tools) →
      s.toolsCache = some (gen, tools) ∨ s'.Made gen.toNat tools)
    (hencoded : ∀ gen bytes, s'.encodedCache = some (gen, bytes) →
      s.encodedCache = some (gen, bytes) ∨ ∃ tools, bytes = encodedTools tools ∧ s'.Made gen.toNat tools) :
    s'.Inv where
  generation := hgeneration
  unlocked := hunlocked
  grows := hgrows
  registered r hr := by
    obtain hr | hr := hregistered r hr
    · exact State.known_now_later hlater hinv.settled_ne_nil hinv.registered r hr
    · exact hr
  toolsCache gen tools h := by
    obtain h | h := htools gen tools h
    · exact (hinv.toolsCache gen tools h).later hlater
    · exact h
  encodedCache gen bytes h := by
    obtain h | h := hencoded gen bytes h
    · obtain ⟨tools, hbytes, hmade⟩ := hinv.encodedCache gen bytes h
      exact ⟨tools, hbytes, hmade.later hlater⟩
    · exact h
  threads i := by
    rw [hthreads, howed]
    exact (hinv.threads i).later hlater hinv.settled_ne_nil

theorem State.Inv.setToolsCache (hinv : s.Inv) {gen : UInt64} {tools : List Tool} (hmade : s.Made gen.toNat tools) :
    State.Inv { s with toolsCache := some (gen, tools) } := by
  refine hinv.write ⟨fun _ h => h, Or.inl rfl, fun _ _ h => h⟩ rfl rfl hinv.generation hinv.unlocked hinv.grows
    (fun _ h => Or.inl h) (fun gen' tools' h => Or.inr ?_) fun _ _ h => Or.inl h
  obtain ⟨rfl, rfl⟩ := Prod.mk.inj (Option.some.inj h)
  exact hmade

theorem State.Inv.setEncodedCache (hinv : s.Inv) {gen : UInt64} {tools : List Tool} (hmade : s.Made gen.toNat tools) :
    State.Inv { s with encodedCache := some (gen, encodedTools tools) } := by
  refine hinv.write ⟨fun _ h => h, Or.inl rfl, fun _ _ h => h⟩ rfl rfl hinv.generation hinv.unlocked hinv.grows
    (fun _ h => Or.inl h) (fun _ _ h => Or.inl h) fun gen' bytes h => Or.inr ?_
  obtain ⟨rfl, rfl⟩ := Prod.mk.inj (Option.some.inj h)
  exact ⟨tools, rfl, hmade⟩

theorem State.Inv.setEncoderLocked (hinv : s.Inv) (b : Bool) : State.Inv { s with encoderLocked := b } :=
  hinv.write ⟨fun _ h => h, Or.inl rfl, fun _ _ h => h⟩ rfl rfl hinv.generation hinv.unlocked hinv.grows
    (fun _ h => Or.inl h) (fun _ _ h => Or.inl h) fun _ _ h => Or.inl h

theorem State.Inv.setCachedTools (hinv : s.Inv) (hnone : s.cachedTools = none) (csharp : List Tool) :
    State.Inv { s with cachedTools := some csharp } :=
  hinv.write ⟨fun found h => (Option.some_ne_none found (h.symm.trans hnone)).elim, Or.inl rfl, fun _ _ h => h⟩
    rfl rfl hinv.generation hinv.unlocked hinv.grows (fun _ h => Or.inl h) (fun _ _ h => Or.inl h)
    fun _ _ h => Or.inl h

theorem State.Inv.begin (hinv : s.Inv) (loads : ℕ) : State.Inv { s with loads := loads } :=
  hinv.write ⟨fun _ h => h, Or.inl rfl, fun _ _ h => h⟩ rfl rfl hinv.generation hinv.unlocked hinv.grows
    (fun _ h => Or.inl h) (fun _ _ h => Or.inl h) fun _ _ h => Or.inl h

theorem State.Inv.register (hinv : s.Inv) {r : Registration} (hr : s.Known s.now r) :
    State.Inv { s with registered := r :: s.registered } := by
  refine hinv.write ⟨fun _ h => h, Or.inl rfl, fun _ _ h => h⟩ rfl rfl hinv.generation hinv.unlocked hinv.grows
    (fun r' h => ?_) (fun _ _ h => Or.inl h) fun _ _ h => Or.inl h
  obtain rfl | h := List.mem_cons.mp h
  · exact Or.inr hr
  · exact Or.inl h

theorem State.Inv.advance (hinv : s.Inv) (hwrap : s.generation.toNat + 1 < 2 ^ 64) {settled : Contents}
    {registered : List Registration} (hlast : ∀ p r, Part.Has p (s.last p) r → Part.Has p (settled p) r)
    (hunlocked : ∀ p, s.locked p = false → s.contents p = settled p)
    (hgrows : ∀ p r, Part.Has p (settled p) r → Part.Has p (s.contents p) r)
    (hregistered : ∀ r ∈ registered, (s.advance settled registered).Known s.settled.length r) :
    (s.advance settled registered).Inv := by
  have hsettled : (s.advance settled registered).last = settled :=
    State.last_eq List.getLast?_concat
  have hnow : (s.advance settled registered).now = s.settled.length := by
    simp [State.now, State.advance]
  refine hinv.write ⟨fun _ h => h, Or.inr ⟨settled, rfl, hlast⟩, fun _ _ h => h⟩ rfl rfl ?_ ?_ ?_ ?_
    (fun _ _ h => Or.inl h) fun _ _ h => Or.inl h
  · have hlen := hinv.generation
    simp only [State.advance, UInt64.toNat_add, UInt64.reduceToNat, List.length_append, List.length_singleton]
    omega
  · rw [hsettled]
    exact hunlocked
  · rw [hsettled]
    exact hgrows
  · intro r hr
    rw [hnow]
    exact (List.mem_append.mp hr).symm.imp id (hregistered r)

theorem State.Inv.change (hinv : s.Inv) {p : Part} {content : p.Content}
    (hgrows : ∀ r, Part.Has p (s.contents p) r → Part.Has p content r) : (s.change p content).Inv := by
  have hcontents : ∀ q r, Part.Has q (s.contents q) r → Part.Has q ((s.change p content).contents q) r := by
    intro q r h
    by_cases hq : q = p
    · subst hq
      simpa only [State.change, Function.update_self] using hgrows r h
    · simpa only [State.change, Function.update_of_ne hq] using h
  refine hinv.write ⟨fun _ h => h, Or.inl rfl, hcontents⟩ rfl rfl hinv.generation ?_
    (fun q r h => hcontents q r (hinv.grows q r h)) (fun _ h => Or.inl h) (fun _ _ h => Or.inl h)
    fun _ _ h => Or.inl h
  intro q hq
  by_cases hqp : q = p
  · subst hqp
    simp [State.change] at hq
  · simp only [State.change, Function.update_of_ne hqp] at hq ⊢
    exact hinv.unlocked q hq

theorem State.Inv.unlock (hinv : s.Inv) {p : Part} (hp : s.contents p = s.last p) :
    State.Inv { s with locked := Function.update s.locked p false } := by
  refine hinv.write ⟨fun _ h => h, Or.inl rfl, fun _ _ h => h⟩ rfl rfl hinv.generation ?_ hinv.grows
    (fun _ h => Or.inl h) (fun _ _ h => Or.inl h) fun _ _ h => Or.inl h
  intro q hq
  by_cases hqp : q = p
  · exact hqp ▸ hp
  · simp only [Function.update_of_ne hqp] at hq
    exact hinv.unlocked q hq

/-- What the registry has when the generation advances will be found registered. -/
theorem known_advance {p : Part} {settled : Contents} {registered : List Registration} {r : Registration}
    (h : Part.Has p (settled p) r) : (s.advance settled registered).Known s.settled.length r := by
  have hkept : (s.advance settled registered).Kept s.settled.length r := by
    refine ⟨p, fun n v hn hv => ?_⟩
    rw [State.advance, List.getElem?_append_right hn] at hv
    obtain ⟨_, rfl⟩ := List.getElem?_eq_some_iff.mp hv
    rwa [List.getElem_singleton]
  cases r with
  | csharp csharp => cases p <;> exact h.elim
  | tool name => exact hkept
  | plugins load plugins => exact hkept

end Writes

/-! ### The steps -/

section Steps

variable [DecidableEq ι] {s s' : State ι} {i : ι}

theorem State.Inv.goto (hinv : s.Inv) {pc : Pc} (hpc : s.ThreadOk (s.owed i) pc) : (s.goto i pc).Inv := by
  have hlater : s.Later (s.goto i pc) := ⟨fun _ h => h, Or.inl rfl, fun _ _ h => h⟩
  refine ⟨hinv.generation, hinv.unlocked, hinv.grows, hinv.registered, hinv.toolsCache, hinv.encodedCache,
    fun j => ?_⟩
  by_cases hj : j = i
  · subst hj
    simpa only [State.goto, Function.update_self] using hpc.later hlater hinv.settled_ne_nil
  · simpa only [State.goto, Function.update_of_ne hj] using (hinv.threads j).later hlater hinv.settled_ne_nil

theorem State.Inv.start (hinv : s.Inv) {pc : Pc} (hpc : s.ThreadOk s.registered pc) : (s.start i pc).Inv := by
  have hlater : s.Later (s.start i pc) := ⟨fun _ h => h, Or.inl rfl, fun _ _ h => h⟩
  refine ⟨hinv.generation, hinv.unlocked, hinv.grows, hinv.registered, hinv.toolsCache, hinv.encodedCache,
    fun j => ?_⟩
  by_cases hj : j = i
  · subst hj
    simpa only [State.start, State.goto, Function.update_self] using hpc.later hlater hinv.settled_ne_nil
  · simpa only [State.start, State.goto, Function.update_of_ne hj] using
      (hinv.threads j).later hlater hinv.settled_ne_nil

theorem State.Inv.call (hinv : s.Inv) (r : Request) : (s.call i r).Inv := by
  cases r with
  | getTools => exact hinv.start ⟨hinv.registered, fun gen hgen => by cases hgen⟩
  | encodedToolsListResult => exact hinv.start hinv.registered
  | registerToolLazy t => exact hinv.goto trivial
  | loadPlugins => exact (hinv.begin (s.loads + 1)).goto trivial
  | cacheNmcpFrame toolName => exact hinv.goto trivial

/-- A call of `get_tools` loads the generation. -/
theorem State.Inv.load (hinv : s.Inv) {c : Caller} (hpc : s.threads i = .load c) :
    (s.goto i (.lookup c s.generation)).Inv := by
  have hok := hinv.threads i
  rw [hpc] at hok
  refine hinv.goto ⟨hinv.now_eq.le, fun r hr => hinv.now_eq ▸ hok.1 r hr, fun gen hgen => ?_⟩
  exact hinv.now_eq ▸ hok.2 gen hgen

theorem State.Inv.read (hinv : s.Inv) {c : Caller} {gen : UInt64} {csharp : List Tool} {view : Contents} {p : Part}
    (hpc : s.threads i = .read c gen csharp view p) (hlocked : s.locked p = false) :
    (s.goto i (afterRead c gen csharp (Function.update view p (s.contents p)) p)).Inv := by
  obtain ⟨hloaded, hcsharp, hread⟩ : s.ThreadOk (s.owed i) (.read c gen csharp view p) := hpc ▸ hinv.threads i
  have hp : ∀ q, q ∈ p.readBefore ∨ q = p →
      ReadSince s.settled gen.toNat (Function.update view p (s.contents p)) q := by
    intro q hq
    by_cases hqp : q = p
    · subst hqp
      refine readSince_last (getLast_settled hinv.settled_ne_nil) ?_ ?_
      · have hle := hloaded.le_now
        have hlen := hinv.generation
        rw [← hinv.now_eq] at hle
        omega
      · rw [Function.update_self, hinv.unlocked q hlocked]
    · obtain ⟨n, v, hn, hv, hview⟩ := hread q (hq.resolve_right hqp)
      exact ⟨n, v, hn, hv, (Function.update_of_ne hqp _ _).trans hview⟩
  apply hinv.goto
  cases p with
  | converted => exact ⟨hloaded, hcsharp, fun q hq => hp q (Or.inr (by simpa [Part.readBefore] using hq))⟩
  | macroTools =>
    exact ⟨hloaded, hcsharp, fun q hq => hp q (by simpa [Part.readBefore] using hq)⟩
  | plugins =>
    refine ⟨hloaded, csharp, _, hcsharp, rfl, fun q => hp q ?_⟩
    cases q <;> simp [Part.readBefore]

/-- A discovery ends; `hsame` is where all have to end alike. -/
theorem State.Inv.discover (hinv : s.Inv) {c : Caller} {gen : UInt64} {found : Except String (List Tool)}
    (hpc : s.threads i = .discover c gen)
    (hsame : ∀ csharp, s.cachedTools = some csharp → csharp = found.toOption.getD [])
    (h : s.runThread i found = some s') : s'.Inv := by
  have hloaded : s.Loaded (s.owed i) c gen.toNat := by
    have hok := hinv.threads i
    rwa [hpc] at hok
  have hread : ∀ csharp, s.cachedTools = some csharp →
      s.ThreadOk (s.owed i) (.read c gen csharp noContents .converted) :=
    fun csharp hcsharp => ⟨hloaded, hcsharp, fun q hq => absurd hq List.not_mem_nil⟩
  simp only [State.runThread, hpc] at h
  cases hcached : s.cachedTools with
  | some csharp =>
    have hfound := hsame csharp hcached
    cases found with
    | ok csharp' =>
      obtain rfl : csharp = csharp' := hfound
      simp only [hcached, Option.some.injEq] at h
      exact h ▸ hinv.goto (hread csharp hcached)
    | error e =>
      obtain rfl : csharp = [] := hfound
      simp only [hcached, Option.some.injEq] at h
      exact h ▸ hinv.goto (hread [] hcached)
  | none =>
    have hset : ∀ csharp, State.Inv { s with cachedTools := some csharp } ∧
        State.Loaded { s with cachedTools := some csharp } (s.owed i) c gen.toNat := by
      intro csharp
      have hlater : s.Later { s with cachedTools := some csharp } :=
        ⟨fun found h => (Option.some_ne_none found (h.symm.trans hcached)).elim, Or.inl rfl, fun _ _ h => h⟩
      exact ⟨hinv.setCachedTools hcached csharp, hloaded.later hlater hinv.settled_ne_nil⟩
    cases found with
    | ok csharp =>
      simp only [hcached, Option.some.injEq] at h
      exact h ▸ (hset csharp).1.goto ⟨(hset csharp).2, rfl⟩
    | error e =>
      simp only [hcached, Option.some.injEq] at h
      exact h ▸ (hset []).1.goto ⟨(hset []).2, rfl, fun q hq => absurd hq List.not_mem_nil⟩

/-- The thread that has set `CACHED_TOOLS` advances the generation. -/
theorem State.Inv.announce (hinv : s.Inv) (hwrap : s.generation.toNat + 1 < 2 ^ 64) {c : Caller} {gen : UInt64}
    {csharp : List Tool} (hpc : s.threads i = .announce c gen csharp) :
    ((s.advance s.last [.csharp csharp]).goto i (.read c gen csharp noContents .converted)).Inv := by
  obtain ⟨hloaded, hcsharp⟩ : s.ThreadOk (s.owed i) (.announce c gen csharp) := hpc ▸ hinv.threads i
  have hadvance : (s.advance s.last [.csharp csharp]).Inv := by
    refine hinv.advance hwrap (fun _ _ h => h) hinv.unlocked hinv.grows fun r hr => ?_
    obtain rfl := List.mem_singleton.mp hr
    exact hcsharp
  have hlater : s.Later (s.advance s.last [.csharp csharp]) :=
    ⟨fun _ h => h, Or.inr ⟨s.last, rfl, fun _ _ h => h⟩, fun _ _ h => h⟩
  exact hadvance.goto ⟨hloaded.later hlater hinv.settled_ne_nil, hcsharp, fun q hq => absurd hq List.not_mem_nil⟩

/-- A registry takes a content that has all that was there, and what is new. -/
theorem State.Inv.enter (hinv : s.Inv) {p : Part} {content : p.Content} {r : Registration}
    (hgrows : ∀ r, Part.Has p (s.contents p) r → Part.Has p content r)
    (hnew : Part.Has p content r) : ((s.change p content).goto i (.bump p r)).Inv := by
  refine (hinv.change hgrows).goto ?_
  have hcontents : (s.change p content).contents p = content := Function.update_self _ _ _
  show Part.Has p ((s.change p content).contents p) r
  rw [hcontents]
  exact hnew

/-- `register_tool_lazy` changes the registry, or finds the tool there. -/
theorem State.Inv.registerTool (hinv : s.Inv) {t : Tool} {found : Except String (List Tool)}
    (hpc : s.threads i = .registerTool t) (h : s.runThread i found = some s') : s'.Inv := by
  simp only [State.runThread, hpc] at h
  by_cases hlocked : s.locked .macroTools = true
  · rw [if_pos hlocked] at h
    cases h
  rw [if_neg hlocked] at h
  by_cases hthere : ∃ u ∈ s.macroTools, u.name = t.name
  · rw [if_pos hthere, Option.some.injEq] at h
    have hlast : Part.Has .macroTools (s.last .macroTools) (.tool t.name) := by
      rw [← hinv.unlocked .macroTools (by simpa using hlocked)]
      exact hthere
    refine h ▸ (hinv.register (r := .tool t.name) ⟨.macroTools, fun n v hn hv => ?_⟩).goto trivial
    obtain ⟨hlt, -⟩ := List.getElem?_eq_some_iff.mp hv
    have hv' := getLast_settled hinv.settled_ne_nil
    rw [List.getLast?_eq_getElem?, show s.settled.length - 1 = n by unfold State.now at hn; omega, hv] at hv'
    exact Option.some.inj hv' ▸ hlast
  · rw [if_neg hthere, Option.some.injEq] at h
    have hgrows : ∀ r, Part.Has .macroTools s.macroTools r → Part.Has .macroTools (s.macroTools ++ [t]) r := by
      intro r hr
      cases r with
      | tool name =>
        obtain ⟨u, hu, hname⟩ := hr
        exact ⟨u, List.mem_append_left _ hu, hname⟩
      | csharp csharp => exact hr
      | plugins load plugins => exact hr
    exact h ▸ hinv.enter (p := .macroTools) hgrows ⟨t, List.mem_append_right _ List.mem_cons_self, rfl⟩

theorem State.Inv.insertTool (hinv : s.Inv) (t : Tool) :
    ((s.change .converted (s.converted.insert t)).goto i (.bump .converted (.tool t.name))).Inv := by
  have hgrows : ∀ r, Part.Has .converted s.converted r → Part.Has .converted (s.converted.insert t) r := by
    intro r hr
    cases r with
    | tool name => exact (mem_insert_iff s.converted t name).mpr (Or.inr hr)
    | csharp csharp => exact hr
    | plugins load plugins => exact hr
  exact hinv.enter (p := .converted) hgrows ((mem_insert_iff s.converted t t.name).mpr (Or.inl rfl))

/-- A load stores what it has read, over what an earlier one stored. -/
theorem State.Inv.storePlugins (hinv : s.Inv) {load : ℕ} {plugins : List (List ManifestTool)}
    (hearlier : s.plugins.1 < load) :
    ((s.change .plugins (load, plugins)).goto i (.bump .plugins (.plugins load plugins))).Inv := by
  have hgrows : ∀ r, Part.Has .plugins s.plugins r → Part.Has .plugins (load, plugins) r := by
    intro r hr
    cases r with
    | tool name => exact hr
    | csharp csharp => exact hr
    | plugins load' plugins' =>
      refine Or.inl ?_
      rcases hr with hlt | heq
      · exact hlt.trans hearlier
      · rw [heq] at hearlier
        exact hearlier
  exact hinv.enter (p := .plugins) hgrows (Or.inr rfl)

theorem State.Inv.bump (hinv : s.Inv) (hwrap : s.generation.toNat + 1 < 2 ^ 64) {p : Part} {r : Registration}
    {found : Except String (List Tool)} (hpc : s.threads i = .bump p r)
    (h : s.runThread i found = some s') : s'.Inv := by
  have hhas : Part.Has p (s.contents p) r := by
    have hok := hinv.threads i
    rwa [hpc] at hok
  simp only [State.runThread, hpc, Option.some.injEq] at h
  set settled : Contents := Function.update s.last p (s.contents p)
  have hother : ∀ q, q ≠ p → settled q = s.last q := fun q hq => Function.update_of_ne hq _ _
  have hself : settled p = s.contents p := Function.update_self _ _ _
  have hadvance : (s.advance settled [r]).Inv := by
    refine hinv.advance hwrap ?_ ?_ ?_ ?_
    · intro q r' hq
      by_cases hqp : q = p
      · subst hqp
        exact hself ▸ hinv.grows q r' hq
      · exact hother q hqp ▸ hq
    · intro q hq
      by_cases hqp : q = p
      · subst hqp
        exact hself.symm
      · rw [hother q hqp]
        exact hinv.unlocked q hq
    · intro q r' hq
      by_cases hqp : q = p
      · subst hqp
        exact hself ▸ hq
      · rw [hother q hqp] at hq
        exact hinv.grows q r' hq
    · intro r' hr
      obtain rfl := List.mem_singleton.mp hr
      exact known_advance (hself ▸ hhas)
  refine h ▸ (hadvance.unlock (p := p) ?_).goto trivial
  rw [State.last_eq (s := s.advance settled _) List.getLast?_concat]
  exact hself.symm

theorem State.Inv.runThread (hinv : s.Inv) {found : Except String (List Tool)} (hok : s.Alike (.run i found))
    (h : s.runThread i found = some s') : s'.Inv := by
  obtain ⟨hwrap, hsame, hearlier⟩ := hok
  have hthread := hinv.threads i
  cases hpc : s.threads i with
  | idle =>
    simp only [State.runThread, hpc] at h
    cases h
  | load c =>
    simp only [State.runThread, hpc, Option.some.injEq] at h
    exact h ▸ hinv.load hpc
  | lookup c gen =>
    -- a hit under the loaded generation returns the cached list, anything else asks the C# engine
    rw [hpc] at hthread
    simp only [State.runThread, hpc] at h
    split at h
    next cachedGen tools hcache =>
      by_cases hgen : cachedGen = gen
      · rw [if_pos hgen, Option.some.injEq] at h
        exact h ▸ hinv.goto ⟨gen.toNat, hthread, hgen ▸ hinv.toolsCache cachedGen tools hcache⟩
      · rw [if_neg hgen, Option.some.injEq] at h
        exact h ▸ hinv.goto hthread
    next => exact Option.some.inj h ▸ hinv.goto hthread
  | csharp c gen =>
    rw [hpc] at hthread
    simp only [State.runThread, hpc] at h
    split at h
    next csharp hcsharp =>
      exact Option.some.inj h ▸ hinv.goto ⟨hthread, hcsharp, fun q hq => absurd hq List.not_mem_nil⟩
    next => exact Option.some.inj h ▸ hinv.goto hthread
  | discover c gen => exact hinv.discover hpc (fun csharp => hsame c gen csharp hpc) h
  | announce c gen csharp =>
    simp only [State.runThread, hpc, Option.some.injEq] at h
    exact h ▸ hinv.announce hwrap hpc
  | read c gen csharp view p =>
    simp only [State.runThread, hpc] at h
    obtain ⟨hlocked, rfl⟩ := of_unless h
    exact hinv.read hpc (by simpa using hlocked)
  | store c gen tools =>
    rw [hpc] at hthread
    simp only [State.runThread, hpc, Option.some.injEq] at h
    have hlater : s.Later { s with toolsCache := some (gen, tools) } :=
      ⟨fun _ h => h, Or.inl rfl, fun _ _ h => h⟩
    exact h ▸ (hinv.setToolsCache hthread.2).goto
      ⟨gen.toNat, hthread.1.later hlater hinv.settled_ne_nil, hthread.2.later hlater⟩
  | listed c tools =>
    rw [hpc] at hthread
    obtain ⟨g, hloaded, hmade⟩ := hthread
    cases c with
    | client =>
      simp only [State.runThread, hpc, Option.some.injEq] at h
      exact h ▸ hinv.goto trivial
    | encoder gen =>
      simp only [State.runThread, hpc, Option.some.injEq] at h
      exact h ▸ hinv.goto ⟨tools, rfl, State.Made.mono hmade (hloaded.encoder gen rfl)⟩
    | converter toolName =>
      simp only [State.runThread, hpc, Option.some.injEq] at h
      exact h ▸ hinv.goto trivial
  | encode =>
    rw [hpc] at hthread
    simp only [State.runThread, hpc] at h
    obtain ⟨-, rfl⟩ := of_unless h
    exact (hinv.setEncoderLocked true).goto hthread
  | encodeLookup =>
    rw [hpc] at hthread
    -- a miss calls `get_tools` under the generation read here
    have hmiss : (s.goto i (.load (.encoder s.generation))).Inv := by
      refine hinv.goto ⟨hthread, fun gen hgen => ?_⟩
      obtain rfl := Caller.encoder.inj hgen
      exact hinv.now_eq.le
    simp only [State.runThread, hpc] at h
    split at h
    next gen bytes hcache =>
      by_cases hgen : gen = s.generation
      · rw [if_pos hgen, Option.some.injEq] at h
        exact h ▸ (hinv.setEncoderLocked false).goto trivial
      · rw [if_neg hgen, Option.some.injEq] at h
        exact h ▸ hmiss
    next => exact Option.some.inj h ▸ hmiss
  | encodeStore gen bytes =>
    rw [hpc] at hthread
    obtain ⟨tools, rfl, hmade⟩ := hthread
    simp only [State.runThread, hpc] at h
    -- bytes of an older generation are not kept
    by_cases hgen : s.generation = gen
    · rw [if_pos hgen, Option.some.injEq] at h
      exact h ▸ ((hinv.setEncodedCache hmade).setEncoderLocked false).goto trivial
    · rw [if_neg hgen, Option.some.injEq] at h
      exact h ▸ (hinv.setEncoderLocked false).goto trivial
  | registerTool t => exact hinv.registerTool hpc h
  | readDirectory load =>
    simp only [State.runThread, hpc] at h
    cases h
  | loadPlugins load plugins =>
    simp only [State.runThread, hpc] at h
    obtain ⟨-, rfl⟩ := of_unless h
    exact hinv.storePlugins (hearlier load plugins hpc)
  | convert toolName =>
    simp only [State.runThread, hpc, Option.some.injEq] at h
    have hadvance : (s.advance s.last []).Inv :=
      hinv.advance hwrap (fun _ _ h => h) hinv.unlocked hinv.grows fun r hr => absurd hr List.not_mem_nil
    exact h ▸ hadvance.start ⟨hadvance.registered, fun gen hgen => by cases hgen⟩
  | insertTool t =>
    simp only [State.runThread, hpc] at h
    obtain ⟨-, rfl⟩ := of_unless h
    exact hinv.insertTool t
  | bump p r => exact hinv.bump hwrap hpc h

theorem State.Inv.step (hinv : s.Inv) {a : Action ι} (hok : s.Alike a) (h : s.step a = some s') : s'.Inv := by
  cases a with
  | call i r =>
    simp only [State.step] at h
    split at h
    · exact Option.some.inj h ▸ hinv.call r
    · cases h
  | run i found => exact hinv.runThread hok h
  | found i plugins =>
    simp only [State.step] at h
    split at h
    · exact Option.some.inj h ▸ hinv.goto trivial
    · cases h

end Steps

theorem State.Inv.initial : (State.initial : State ι).Inv where
  generation := rfl
  unlocked _ _ := rfl
  grows _ _ h := h
  registered r hr := absurd hr List.not_mem_nil
  toolsCache _ _ h := by cases h
  encodedCache _ _ h := by cases h
  threads _ := trivial

/-! ### What follows for the lists -/

section Coherent

variable {s : State ι} {g : ℕ} {tools : List Tool}

/-- A list that was made since the generation `g` has what is known at `g`. -/
theorem State.Made.contains (hmade : s.Made g tools) {r : Registration} (h : s.Known g r) : s.Contains tools r := by
  obtain ⟨csharp, view, hcsharp, rfl, hread⟩ := hmade
  cases r with
  | tool name =>
    obtain ⟨p, hp⟩ := h
    obtain ⟨n, v, hn, hv, hview⟩ := hread p
    have hhas : Part.Has p (view p) (.tool name) := hview ▸ hp n v hn hv
    apply mem_names_of_registry
    cases p with
    | converted => exact Or.inr (Or.inl hhas)
    | macroTools => exact Or.inr (Or.inr (Or.inl hhas))
    | plugins => exact hhas.elim
  | csharp csharp' =>
    obtain rfl : csharp' = csharp := Option.some.inj (h.symm.trans hcsharp)
    exact fun t ht hdeprecated => mem_names_of_registry _ (Or.inl ⟨t, ht, hdeprecated, rfl⟩)
  | plugins load plugins =>
    obtain ⟨p, hp⟩ := h
    obtain ⟨n, v, hn, hv, hview⟩ := hread p
    have hhas : Part.Has p (v p) (.plugins load plugins) := hp n v hn hv
    cases p with
    | converted => exact hhas.elim
    | macroTools => exact hhas.elim
    | plugins =>
      refine ⟨v, List.mem_of_getElem? hv, hhas, fun t ht =>
        mem_names_of_registry _ (Or.inr (Or.inr (Or.inr ⟨t, ?_, rfl⟩)))⟩
      rw [Contents.with, hview]
      exact ht

/-- A list that was made since the generation came to what it is could be made again. -/
theorem State.Inv.couldReturn (hinv : s.Inv) (hmade : s.Made s.generation.toNat tools) : s.CouldReturn tools := by
  obtain ⟨csharp, view, hcsharp, htools, hread⟩ := hmade
  refine Or.inr (Or.inr ⟨csharp, view, htools, fun p => ?_, fun found hfound => ?_⟩)
  · have hlast : view p = s.last p := (hread p).eq_last hinv.generation (getLast_settled hinv.settled_ne_nil)
    cases hlocked : s.locked p with
    | true => exact Or.inr ⟨rfl, hlast⟩
    | false => exact Or.inl (hlast.trans (hinv.unlocked p hlocked).symm)
  · exact Option.some.inj (hcsharp.symm.trans hfound)

theorem State.Inv.coherent (hinv : s.Inv) : s.Coherent := by
  have hcomplete : ∀ i c tools, s.threads i = .listed c tools → ∀ r ∈ s.owed i, s.Contains tools r := by
    intro i c tools hpc r hr
    have hok := hinv.threads i
    rw [hpc] at hok
    obtain ⟨g, hloaded, hmade⟩ := hok
    exact hmade.contains (hloaded.known r hr)
  refine ⟨hcomplete, fun i bytes h => ?_⟩
  unfold State.encodes at h
  split at h
  next hpc =>
    have hok := hinv.threads i
    rw [hpc] at hok
    split at h
    next gen cached hcache =>
      by_cases hgen : gen = s.generation
      · rw [if_pos hgen] at h
        obtain rfl := Option.some.inj h
        obtain ⟨tools, hbytes, hmade⟩ := hinv.encodedCache gen cached hcache
        rw [hgen] at hmade
        refine ⟨tools, hbytes, hinv.couldReturn hmade, fun r hr => hmade.contains ?_⟩
        exact hinv.now_eq ▸ hok r hr
      · rw [if_neg hgen] at h
        cases h
    next => cases h
  next gen tools hpc =>
    obtain rfl := Option.some.inj h
    exact ⟨tools, rfl, Or.inl ⟨i, _, hpc⟩, hcomplete i _ tools hpc⟩
  next => cases h

end Coherent

/-! ## The runs -/

/-- **Lists are complete and encodings current** in every run in which all discoveries end alike and loads of plugins
store in the order in which they began. -/
theorem coherent_of_reachable [DecidableEq ι] {s : State ι}
    (h : ReachableWhen (· = State.initial) State.step State.Alike s) : s.Coherent := by
  refine State.Inv.coherent (h.invariant (fun _ hinit => hinit ▸ State.Inv.initial) ?_)
  exact fun s a s' hinv hok hstep => hinv.step hok hstep

/-! ### Runs -/

def notFound : Except String (List Tool) := .error "C# engine not found"

/-- The condition, decided; all discoveries are compared with `CACHED_TOOLS`. -/
def State.alike (s : State ι) : Action ι → Bool
  | .call _ _ => true
  | .run i found => decide (s.generation.toNat + 1 < 2 ^ 64) && (s.cachedTools.all (· = found.toOption.getD []) &&
      match s.threads i with
      | .loadPlugins load _ => decide (s.plugins.1 < load)
      | _ => true)
  | .found _ _ => true

theorem State.alike_of_alike (s : State ι) (a : Action ι) (h : s.alike a = true) : s.Alike a := by
  cases a with
  | call i r => trivial
  | run i found =>
    simp only [State.alike, Bool.and_eq_true, decide_eq_true_eq, Option.all_eq_true] at h
    refine ⟨h.1, fun c gen csharp _ hcached => h.2.1 csharp hcached, fun load plugins hpc => ?_⟩
    have hearlier := h.2.2
    rw [hpc] at hearlier
    exact of_decide_eq_true hearlier
  | found i plugins => trivial

def registerThenList : List (Action (Fin 1)) :=
  .call 0 (.registerToolLazy pluginSearch.toTool) :: .run 0 notFound :: .run 0 notFound ::
    .call 0 .getTools :: List.replicate 8 (.run 0 notFound)

/-- A listing owes the registration that came before it. -/
theorem coherent_of_reachable_search : ∃ s : State (Fin 1), (∃ tools, s.threads 0 = .listed .client tools) ∧
    s.owed 0 = [.tool "search"] ∧ s.Coherent := by
  have hrun : (runActions State.step State.alike State.initial registerThenList).isSome = true := by
    decide +kernel
  obtain ⟨s, hs⟩ := Option.isSome_iff_exists.mp hrun
  have hthread : ((runActions State.step State.alike State.initial registerThenList).map
      fun s => (s.threads 0, s.owed 0)) = some (.listed .client _, [.tool "search"]) := rfl
  rw [hs, Option.map_some, Option.some.injEq, Prod.mk.injEq] at hthread
  exact ⟨s, ⟨_, hthread.1⟩, hthread.2, coherent_of_reachable
    (ReachableWhen.runActions State.alike_of_alike (.init rfl) hs)⟩

/-- Two threads look for the C# tools.  The one in `get_tools` does not find them, and the other does. -/
def discoveriesDiffer : List (Action (Fin 2)) :=
  .call 0 .getTools :: List.replicate 3 (.run 0 notFound) ++
    .call 1 .encodedToolsListResult :: List.replicate 5 (.run 1 notFound) ++
    [.run 0 notFound, .run 1 (.ok [csharpSearch])] ++ List.replicate 6 (.run 1 notFound) ++
    List.replicate 5 (.run 0 notFound) ++ [.call 1 .encodedToolsListResult, .run 1 notFound]

theorem length_of_encodedTools_eq {tools tools' : List Tool} (h : encodedTools tools = encodedTools tools') :
    tools.length % 256 ^ 4 = tools'.length % 256 ^ 4 := by
  simp only [encodedTools, encodeToolsListResult, Emit.put_andThen, List.cons_append, List.append_assoc] at h
  have h := List.append_cancel_left (List.cons.inj h).2
  have h := List.append_cancel_left (List.append_cancel_left h)
  have h := (List.append_inj (List.cons.inj h).2 (by rw [length_beBytes, length_beBytes])).1
  rw [← beNat_beBytes, h, beNat_beBytes]

/-- Two threads look for the C# tools, and only one of them finds any. -/
theorem encodings_not_current :
    ∃ s : State (Fin 2), ReachableWhen (· = State.initial) State.step (fun _ _ => True) s ∧ ¬ s.Coherent := by
  have hrun : (runActions State.step (fun _ _ => true) State.initial discoveriesDiffer).isSome = true := by
    decide +kernel
  obtain ⟨s, hs⟩ := Option.isSome_iff_exists.mp hrun
  refine ⟨s, ReachableWhen.runActions (fun _ _ _ => trivial) (.init rfl) hs, fun hcoherent => ?_⟩
  have hcaches : ((runActions State.step (fun _ _ => true) State.initial discoveriesDiffer).map
      fun s => (s.encodes 1, s.toolsCache, s.cachedTools)) =
        some (some (encodedTools (listTools (noContents.with [csharpSearch]))),
          some (0, listTools (noContents.with [])), some []) := rfl
  have hrest : ((runActions State.step (fun _ _ => true) State.initial discoveriesDiffer).map
      fun s => (s.threads 0, s.threads 1, s.contents, s.locked)) =
        some (.idle, .encodeLookup, noContents, fun _ => false) := rfl
  simp only [hs, Option.map_some, Option.some.injEq, Prod.mk.injEq] at hcaches hrest
  obtain ⟨hencodes, htools, hcached⟩ := hcaches
  obtain ⟨hidle, hlookup, hcontents, hlocked⟩ := hrest
  obtain ⟨tools, hbytes, hcould, -⟩ := hcoherent.current 1 _ hencodes
  -- what `get_tools` can return here has nothing of the C# engine
  have hreturned : tools = listTools (noContents.with []) := by
    obtain ⟨i, c, hpc⟩ | hcache | ⟨csharp, view, hlist, hvisible, hfound⟩ := hcould
    · obtain rfl | rfl : i = 0 ∨ i = 1 := by omega
      · exact absurd (hidle.symm.trans hpc) (by simp)
      · exact absurd (hlookup.symm.trans hpc) (by simp)
    · exact (Prod.mk.inj (Option.some.inj (hcache.symm.trans htools))).2
    · have hview : view = noContents := by
        funext p
        refine (hvisible p).elim (fun h => h.trans (congrFun hcontents p)) fun h => ?_
        rw [hlocked] at h
        exact absurd h.1 Bool.false_ne_true
      rw [hlist, hview, hfound [] hcached]
  rw [hreturned] at hbytes
  have hlength := length_of_encodedTools_eq hbytes
  revert hlength
  decide +kernel

/-- Two loads: the one that began first reads the directory before the plugin is there, and stores last. -/
def loadsCross : List (Action (Fin 2)) :=
  [.call 0 .loadPlugins, .found 0 [], .call 1 .loadPlugins, .found 1 [[pluginSearch]], .run 1 notFound,
    .run 1 notFound, .run 0 notFound, .run 0 notFound, .call 1 .getTools] ++ List.replicate 8 (.run 1 notFound)

/-- A list without the plugins of a load that has returned, and that no load that began later has replaced. -/
theorem plugins_lost :
    ∃ s : State (Fin 2), ReachableWhen (· = State.initial) State.step (fun _ _ => True) s ∧ ¬ s.Coherent := by
  have hrun : (runActions State.step (fun _ _ => true) State.initial loadsCross).isSome = true := by
    decide +kernel
  obtain ⟨s, hs⟩ := Option.isSome_iff_exists.mp hrun
  refine ⟨s, ReachableWhen.runActions (fun _ _ _ => trivial) (.init rfl) hs, fun hcoherent => ?_⟩
  have hlisted : ((runActions State.step (fun _ _ => true) State.initial loadsCross).map
      fun s => (s.threads 1, s.owed 1)) =
        some (.listed .client (listTools (noContents.with [])), [.plugins 1 [], .plugins 2 [[pluginSearch]]]) := rfl
  have hsettled : ((runActions State.step (fun _ _ => true) State.initial loadsCross).map
      fun s => s.settled.map fun v => (v .plugins : ℕ × List (List ManifestTool))) =
        some [(0, []), (2, [[pluginSearch]]), (1, [])] := rfl
  simp only [hs, Option.map_some, Option.some.injEq, Prod.mk.injEq] at hlisted hsettled
  obtain ⟨v, hv, hload, htools⟩ := hcoherent.complete 1 _ _ hlisted.1 (.plugins 2 [[pluginSearch]]) (by
    rw [hlisted.2]
    exact List.mem_cons_of_mem _ List.mem_cons_self)
  have hmem : (v .plugins : ℕ × List (List ManifestTool)) ∈ [(0, []), (2, [[pluginSearch]]), (1, [])] :=
    hsettled ▸ List.mem_map_of_mem hv
  have hnone : ∀ c ∈ ([(0, []), (2, [[pluginSearch]]), (1, [])] : List (ℕ × List (List ManifestTool))), ¬ 2 < c.1 := by
    simp
  have hread : v .plugins = (2, [[pluginSearch]]) := hload.resolve_left (hnone _ hmem)
  rw [hread] at htools
  revert htools
  decide +kernel

end VelocityMcp.Registry
