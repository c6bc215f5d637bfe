import VelocityMcp.Registry.Listing

/-!
# Registry.Dispatch — which executor a call reaches (`call_tool_with_csharp_path` of `registry.rs`)

`route` tries the frame cache, then the plugins, then the C# engine; `get_tools` merges the C# tools, the
converted ones, those of macros and those of plugins, in this order.  `agrees_iff_aligned`: when the two come
to the same source.
-/

namespace VelocityMcp.Registry

open Lib

/-! ## Routing -/

def findPluginTool (plugins : List (List ManifestTool)) (name : String) : Option ManifestTool :=
  plugins.findSome? fun tools => tools.find? fun t => t.name = name

inductive Executor where
  | builtin
  /-- `execute_cached_nmcp_frame` -/
  | frame (nda : Bytes)
  /-- `execute_plugin_tool` -/
  | plugin (tool : ManifestTool)
  /-- `execute_csharp_mcp_tool` -/
  | csharp

/-- The arm of the dispatcher for a name; `frames` is `NMCP_FRAME_CACHE`. -/
def route (plugins : List (List ManifestTool)) (frames : String → Option Bytes) (name : String) : Executor :=
  if name ∈ Wasm.builtinToolNames then .builtin
  else match frames name with
    | some nda => .frame nda
    | none => match findPluginTool plugins name with
      | some tool => .plugin tool
      | none => .csharp

/-! ## What is advertised -/

/-- Where a definition comes from. -/
inductive Source where
  | builtin
  | csharp
  | converted
  | macroTool
  | plugin
deriving DecidableEq, Repr

/-- The sources of the listing by name. -/
def Registries.labelled (r : Registries) : List (Source × List Tool) :=
  List.zip [.builtin, .csharp, .converted, .macroTool, .plugin] r.sources

/-- The first definition of a name, with its label. -/
def findLabelled (sources : List (Source × List Tool)) (name : String) : Option (Source × Tool) :=
  sources.findSome? fun s => (s.2.find? fun t => t.name = name).map fun t => (s.1, t)

/-- The source of the definition that `tools/list` shows under a name, and the definition. -/
def advertised (r : Registries) (name : String) : Option (Source × Tool) := findLabelled r.labelled name

theorem findLabelled_cons (s : Source) (tools : List Tool) (sources : List (Source × List Tool)) (name : String) :
    findLabelled ((s, tools) :: sources) name =
      match tools.find? fun t => t.name = name with
      | some t => some (s, t)
      | none => findLabelled sources name := by
  rw [findLabelled, List.findSome?_cons]
  cases tools.find? fun t => t.name = name <;> rfl

/-! ## Agreement -/

/-- If a name is listed, a call of it is run by the source whose definition is shown; and if that is a plugin,
by the tool whose definition it is. -/
def Agrees (r : Registries) (frames : String → Option Bytes) (name : String) : Prop :=
  ∀ s t, advertised r name = some (s, t) →
    match route r.plugins frames name with
    | .builtin => s = .builtin
    | .frame _ => s = .converted
    | .plugin tool => s = .plugin ∧ t = tool.toTool
    | .csharp => s = .csharp

def Registries.HasCsharp (r : Registries) (name : String) : Prop :=
  ∃ t ∈ r.csharp, t.name ∉ deprecatedNames ∧ t.name = name

def Registries.HasConverted (r : Registries) (name : String) : Prop :=
  ∃ e ∈ r.converted.entries, e.1 = name

def Registries.HasMacro (r : Registries) (name : String) : Prop := ∃ t ∈ r.macroTools, t.name = name

/-- No two sources that the listing and the dispatcher order differently have the name, and no macro tool is
listed under it. -/
structure Aligned (r : Registries) (frames : String → Option Bytes) (name : String) : Prop where
  csharp : r.HasCsharp name → frames name = none ∧ findPluginTool r.plugins name = none
  converted : ¬ r.HasCsharp name → r.HasConverted name → (frames name).isSome
  macroTool : r.HasMacro name → r.HasCsharp name ∨ r.HasConverted name
  plugin : (findPluginTool r.plugins name).isSome → ¬ r.HasConverted name → frames name = none

section Sources

variable {r : Registries} {name : String}

theorem find_builtin (h : name ∉ Wasm.builtinToolNames) :
    getBuiltinTools.find? (fun t => t.name = name) = none := by
  rw [List.find?_eq_none]
  intro t ht heq
  have hname : t.name = name := by simpa using heq
  exact h (mem_builtin_iff.mp (hname ▸ List.mem_map_of_mem ht))

theorem find_csharp (r : Registries) (name : String) :
    ((r.csharp.filter (·.name ∉ deprecatedNames)).find? fun t => t.name = name).isSome ↔ r.HasCsharp name := by
  rw [List.find?_isSome, Registries.HasCsharp]
  simp [and_assoc]

theorem find_converted (r : Registries) (name : String) :
    ((r.converted.entries.map Prod.snd).find? fun t => t.name = name).isSome ↔ r.HasConverted name := by
  rw [List.find?_isSome, Registries.HasConverted]
  constructor
  · rintro ⟨t, ht, hname⟩
    obtain ⟨e, he, rfl⟩ := List.mem_map.mp ht
    exact ⟨e, he, (r.converted.named e he).symm.trans (by simpa using hname)⟩
  · rintro ⟨e, he, rfl⟩
    exact ⟨e.2, List.mem_map_of_mem he, by simpa using r.converted.named e he⟩

theorem find_macro (r : Registries) (name : String) :
    (r.macroTools.find? fun t => t.name = name).isSome ↔ r.HasMacro name := by
  rw [List.find?_isSome, Registries.HasMacro]
  simp

theorem find_plugin (plugins : List (List ManifestTool)) (name : String) :
    (pluginsToRegistryTools plugins).find? (fun t => t.name = name) =
      (findPluginTool plugins name).map ManifestTool.toTool := by
  induction plugins with
  | nil => rfl
  | cons tools plugins ih =>
    have hmap : (tools.map ManifestTool.toTool).find? (fun t => t.name = name) =
        (tools.find? fun t => t.name = name).map ManifestTool.toTool := List.find?_map
    rw [pluginsToRegistryTools, List.flatMap_cons, List.find?_append, hmap, findPluginTool, List.findSome?_cons]
    cases tools.find? fun t => t.name = name with
    | some t => rfl
    | none => exact ih

theorem advertised_of_not_builtin (r : Registries) (h : name ∉ Wasm.builtinToolNames) : advertised r name =
    match (r.csharp.filter (·.name ∉ deprecatedNames)).find? fun t => t.name = name,
      (r.converted.entries.map Prod.snd).find? fun t => t.name = name,
      r.macroTools.find? fun t => t.name = name, findPluginTool r.plugins name with
    | some t, _, _, _ => some (.csharp, t)
    | none, some t, _, _ => some (.converted, t)
    | none, none, some t, _ => some (.macroTool, t)
    | none, none, none, some tool => some (.plugin, tool.toTool)
    | none, none, none, none => none := by
  have hlabelled : r.labelled = [(.builtin, getBuiltinTools),
      (.csharp, r.csharp.filter (·.name ∉ deprecatedNames)), (.converted, r.converted.entries.map Prod.snd),
      (.macroTool, r.macroTools), (.plugin, pluginsToRegistryTools r.plugins)] := rfl
  rw [advertised, hlabelled, findLabelled_cons, findLabelled_cons, findLabelled_cons, findLabelled_cons,
    findLabelled_cons, find_builtin h, find_plugin]
  cases (r.csharp.filter (·.name ∉ deprecatedNames)).find? fun t => t.name = name with
  | some t => rfl
  | none =>
    cases (r.converted.entries.map Prod.snd).find? fun t => t.name = name with
    | some t => rfl
    | none =>
      cases r.macroTools.find? fun t => t.name = name with
      | some t => rfl
      | none => cases findPluginTool r.plugins name <;> rfl

theorem mem_of_findLabelled {sources : List (Source × List Tool)} {s : Source} {t : Tool}
    (h : findLabelled sources name = some (s, t)) :
    ∃ tools, (s, tools) ∈ sources ∧ t ∈ tools ∧ t.name = name := by
  obtain ⟨⟨s', tools⟩, hmem, hfind⟩ := List.exists_of_findSome?_eq_some h
  obtain ⟨t', ht, heq⟩ := Option.map_eq_some_iff.mp hfind
  obtain ⟨rfl, rfl⟩ := Prod.mk.inj heq
  exact ⟨tools, hmem, List.mem_of_find?_eq_some ht, by simpa using List.find?_some ht⟩

theorem hasConverted_of_advertised {t : Tool} (h : advertised r name = some (.converted, t)) :
    r.HasConverted name := by
  obtain ⟨tools, hmem, ht, rfl⟩ := mem_of_findLabelled h
  obtain rfl : tools = r.converted.entries.map Prod.snd := by
    simpa [Registries.labelled, Registries.sources] using hmem
  obtain ⟨e, he, rfl⟩ := List.mem_map.mp ht
  exact ⟨e, he, (r.converted.named e he).symm⟩

end Sources

/-- **Listing and dispatch** agree on a name just where they are aligned. -/
theorem agrees_iff_aligned (r : Registries) (frames : String → Option Bytes) {name : String}
    (h : name ∉ Wasm.builtinToolNames) : Agrees r frames name ↔ Aligned r frames name := by
  have hc := find_csharp r name
  have hv := find_converted r name
  have hm := find_macro r name
  rw [Agrees, advertised_of_not_builtin r h, route, if_neg h]
  generalize (r.csharp.filter (·.name ∉ deprecatedNames)).find? (fun t => t.name = name) = csharp at hc ⊢
  generalize (r.converted.entries.map Prod.snd).find? (fun t => t.name = name) = converted at hv ⊢
  generalize r.macroTools.find? (fun t => t.name = name) = macroTool at hm ⊢
  constructor
  · intro hagree
    -- a name that only a macro tool has is never routed to it
    have hmacroTool : r.HasMacro name → r.HasCsharp name ∨ r.HasConverted name := by
      intro hmacroTool
      obtain ⟨t, rfl⟩ := Option.isSome_iff_exists.mp (hm.mpr hmacroTool)
      by_contra hothers
      obtain ⟨hcsharp, hconverted⟩ := not_or.mp hothers
      obtain rfl := Option.not_isSome_iff_eq_none.mp (mt hc.mp hcsharp)
      obtain rfl := Option.not_isSome_iff_eq_none.mp (mt hv.mp hconverted)
      have hroute := hagree .macroTool t rfl
      cases hf : frames name <;> cases hp : findPluginTool r.plugins name <;> simp [hf, hp] at hroute
    have hcsharp : r.HasCsharp name → frames name = none ∧ findPluginTool r.plugins name = none := by
      intro hcsharp
      obtain ⟨t, rfl⟩ := Option.isSome_iff_exists.mp (hc.mpr hcsharp)
      have hroute := hagree .csharp t rfl
      cases hf : frames name <;> cases hp : findPluginTool r.plugins name <;> simp [hf, hp] at hroute ⊢
    refine ⟨hcsharp, ?_, hmacroTool, ?_⟩
    · intro hno hconverted
      obtain ⟨t, rfl⟩ := Option.isSome_iff_exists.mp (hv.mpr hconverted)
      obtain rfl := Option.not_isSome_iff_eq_none.mp (mt hc.mp hno)
      have hroute := hagree .converted t rfl
      cases hf : frames name <;> cases hp : findPluginTool r.plugins name <;> simp [hf, hp] at hroute ⊢
    · intro hplugin hno
      by_cases hhas : r.HasCsharp name
      · exact (hcsharp hhas).1
      · have hnomacro : ¬ r.HasMacro name := fun hhasMacro => (hmacroTool hhasMacro).elim hhas hno
        obtain ⟨tool, htool⟩ := Option.isSome_iff_exists.mp hplugin
        obtain rfl := Option.not_isSome_iff_eq_none.mp (mt hc.mp hhas)
        obtain rfl := Option.not_isSome_iff_eq_none.mp (mt hv.mp hno)
        obtain rfl := Option.not_isSome_iff_eq_none.mp (mt hm.mp hnomacro)
        have hroute := hagree .plugin tool.toTool (by rw [htool])
        cases hf : frames name <;> simp [hf] at hroute ⊢
  · intro haligned s t hlisted
    -- which source is listed first decides, as it does for the route
    cases csharp with
    | some u =>
      obtain ⟨hf, hp⟩ := haligned.csharp (hc.mp rfl)
      obtain ⟨rfl, -⟩ := Prod.mk.inj (Option.some.inj hlisted)
      rw [hf, hp]
    | none =>
      have hno : ¬ r.HasCsharp name := fun hhas => by simpa using hc.mpr hhas
      cases converted with
      | some u =>
        obtain ⟨nda, hf⟩ := Option.isSome_iff_exists.mp (haligned.converted hno (hv.mp rfl))
        obtain ⟨rfl, -⟩ := Prod.mk.inj (Option.some.inj hlisted)
        rw [hf]
      | none =>
        have hnoConverted : ¬ r.HasConverted name := fun hhas => by simpa using hv.mpr hhas
        cases macroTool with
        | some u => exact absurd (haligned.macroTool (hm.mp rfl)) (not_or.mpr ⟨hno, hnoConverted⟩)
        | none =>
          cases hp : findPluginTool r.plugins name with
          | some tool =>
            have hf := haligned.plugin (by rw [hp]; rfl) hnoConverted
            rw [hp] at hlisted
            obtain ⟨rfl, rfl⟩ := Prod.mk.inj (Option.some.inj hlisted)
            rw [hf]
            exact ⟨rfl, rfl⟩
          | none =>
            rw [hp] at hlisted
            cases hlisted

/-! ### A name that the C# engine and a plugin have -/

def noTools : Registries :=
  { csharp := [], converted := ⟨[], by simp, by simp⟩, macroTools := [], plugins := [] }

/-- `search`, as the C# engine describes it. -/
def csharpSearch : Tool :=
  { name := "search", description := "Search the index.", inputSchema := objectSchema [] [] }

/-- `search`, as a plugin describes it. -/
def pluginSearch : ManifestTool :=
  { name := "search", executorType := "process", language := none, source := none, sourceFile := none,
    description := "Search the web.", inputSchema := objectSchema [("query", typed "string" "Words.")] ["query"] }

def twoSearches : Registries := { noTools with csharp := [csharpSearch], plugins := [[pluginSearch]] }

theorem search_not_builtin : "search" ∉ Wasm.builtinToolNames := by decide

/-- The tool of the C# engine is listed, and that of the plugin called. -/
theorem search_disagrees : ¬ ∀ (r : Registries) (frames : String → Option Bytes) (name : String),
    name ∉ Wasm.builtinToolNames → Agrees r frames name := by
  intro hall
  have hagree := hall twoSearches (fun _ => none) "search" search_not_builtin .csharp csharpSearch (by decide +kernel)
  have hroute : route twoSearches.plugins (fun _ => none) "search" = .plugin pluginSearch := by
    rw [route, if_neg search_not_builtin]
    rfl
  rw [hroute] at hagree
  exact absurd hagree.1 (by decide)

/-- Without the plugin, the C# engine runs what it advertises. -/
theorem agrees_iff_aligned_search :
    Agrees { twoSearches with plugins := [] } (fun _ => none) "search" ↔
      Aligned { twoSearches with plugins := [] } (fun _ => none) "search" :=
  agrees_iff_aligned _ _ (by decide)

end VelocityMcp.Registry
