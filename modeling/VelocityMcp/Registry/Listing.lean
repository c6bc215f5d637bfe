import VelocityMcp.Lib.FirstWins
import VelocityMcp.Registry.Builtin

/-!
# Registry.Listing — the tools that `tools/list` shows (`get_tools` of `registry.rs`)

The registries, and the five loops of `get_tools` that merge them; the cached list in front of them is the
subject of `Registry.ToolsCache`.  `listTools_spec`: every name once, with the definition of the first
registry that has it.
-/

namespace VelocityMcp.Registry

open Lib

/-! ## The registries -/

structure ManifestTool extends Wasm.PluginTool where
  description : String
  inputSchema : Value

/-- `CONVERTED_TOOL_REGISTRY`, in the order its iterator gives: every key once, each definition under its own
name. -/
structure ConvertedTools where
  entries : List (String × Tool)
  nodup : (entries.map Prod.fst).Nodup
  named : ∀ e ∈ entries, e.2.name = e.1

/-- The four sources of tools besides the built-in ones. -/
structure Registries where
  csharp : List Tool
  converted : ConvertedTools
  macroTools : List Tool
  plugins : List (List ManifestTool)

/-- What `tools/list` shows of a plugin's tool. -/
def ManifestTool.toTool (t : ManifestTool) : Tool :=
  { name := t.name
    description :=
      if t.executorType = "wasm" then
        match t.language with
        | some lang => t.description ++ " [wasm:" ++ lang ++ "]"
        | none => t.description
      else t.description
    inputSchema := t.inputSchema }

def pluginsToRegistryTools (plugins : List (List ManifestTool)) : List Tool :=
  plugins.flatMap fun tools => tools.map ManifestTool.toTool

/-! ## `get_tools` -/

/-- `tools` and `known_names`. -/
structure Listing where
  tools : List Tool
  known : List String

def Listing.push (l : Listing) (name : String) (t : Tool) : Listing :=
  { tools := l.tools ++ [t], known := name :: l.known }

def deprecatedNames : List String := ["convert_to_nda"]

def addDiscovered (l : Listing) (tools : List Tool) : Listing :=
  tools.foldl (fun l t => if t.name ∉ l.known ∧ t.name ∉ deprecatedNames then l.push t.name t else l) l

def addConverted (l : Listing) (entries : List (String × Tool)) : Listing :=
  entries.foldl (fun l e => if e.1 ∉ l.known then l.push e.1 e.2 else l) l

/-- The loop over the macro tools, and that over the tools of plugins. -/
def addTools (l : Listing) (tools : List Tool) : Listing :=
  tools.foldl (fun l t => if t.name ∉ l.known then l.push t.name t else l) l

/-- What `get_tools` makes of the registries. -/
def listTools (r : Registries) : List Tool :=
  let l : Listing := { tools := getBuiltinTools, known := getBuiltinTools.map Tool.name }
  let l := addDiscovered l r.csharp
  let l := addConverted l r.converted.entries
  let l := addTools l r.macroTools
  let l := addTools l (pluginsToRegistryTools r.plugins)
  l.tools

/-! ## What is listed -/

/-- The definitions there are, the source of the highest precedence first. -/
def Registries.sources (r : Registries) : List (List Tool) :=
  [getBuiltinTools, r.csharp.filter (·.name ∉ deprecatedNames), r.converted.entries.map Prod.snd, r.macroTools,
    pluginsToRegistryTools r.plugins]

/-- `known_names` are the names of `tools`. -/
def Listing.Agrees (l : Listing) : Prop := ∀ name, name ∈ l.known ↔ name ∈ l.tools.map Tool.name

variable {l : Listing}

theorem push_of_agrees (h : l.Agrees) (t : Tool) :
    (if t.name ∉ l.known then l.push t.name t else l).tools = pushNew Tool.name l.tools t ∧
      (if t.name ∉ l.known then l.push t.name t else l).Agrees := by
  by_cases ht : t.name ∈ l.known
  · rw [if_neg (not_not.mpr ht), pushNew, if_pos ((h _).mp ht)]
    exact ⟨rfl, h⟩
  · rw [if_pos ht, pushNew, if_neg fun hmem => ht ((h _).mpr hmem)]
    refine ⟨rfl, fun name => ?_⟩
    simp [Listing.push, h name, or_comm]

theorem addTools_eq (h : l.Agrees) (tools : List Tool) :
    (addTools l tools).tools = pushAll Tool.name l.tools tools ∧ (addTools l tools).Agrees := by
  induction tools generalizing l with
  | nil => exact ⟨rfl, h⟩
  | cons t tools ih =>
    obtain ⟨htools, hagrees⟩ := push_of_agrees h t
    rw [pushAll_cons, ← htools]
    exact ih hagrees

theorem addConverted_eq_addTools (entries : List (String × Tool)) (hnamed : ∀ e ∈ entries, e.2.name = e.1)
    (l : Listing) : addConverted l entries = addTools l (entries.map Prod.snd) := by
  rw [addConverted, addTools, List.foldl_map]
  apply List.foldl_ext
  intro l e he
  rw [hnamed e he]

theorem addDiscovered_eq_addTools (tools : List Tool) (l : Listing) :
    addDiscovered l tools = addTools l (tools.filter (·.name ∉ deprecatedNames)) := by
  rw [addDiscovered, addTools, List.foldl_filter]
  apply List.foldl_ext
  intro l t _
  by_cases ht : t.name ∈ deprecatedNames <;> simp [ht]

/-- **The loops are one**, over all definitions after the built-in ones. -/
theorem listTools_eq (r : Registries) :
    listTools r = pushAll Tool.name getBuiltinTools r.sources.tail.flatten := by
  have hstart : Listing.Agrees { tools := getBuiltinTools, known := getBuiltinTools.map Tool.name } :=
    fun name => Iff.rfl
  obtain ⟨hcsharp, h₁⟩ := addTools_eq hstart (r.csharp.filter (·.name ∉ deprecatedNames))
  obtain ⟨hconverted, h₂⟩ := addTools_eq h₁ (r.converted.entries.map Prod.snd)
  obtain ⟨hmacroTool, h₃⟩ := addTools_eq h₂ r.macroTools
  obtain ⟨hplugins, -⟩ := addTools_eq h₃ (pluginsToRegistryTools r.plugins)
  rw [listTools, addDiscovered_eq_addTools, addConverted_eq_addTools _ r.converted.named, hplugins, hmacroTool,
    hconverted, hcsharp]
  simp only [Registries.sources, List.tail_cons, List.flatten_cons, List.flatten_nil, List.append_nil,
    pushAll_append]

theorem flatten_sources (r : Registries) : r.sources.flatten = getBuiltinTools ++ r.sources.tail.flatten := rfl

theorem mem_listTools_iff (r : Registries) (t : Tool) :
    t ∈ listTools r ↔ r.sources.flatten.find? (fun u => u.name = t.name) = some t := by
  rw [listTools_eq, flatten_sources]
  exact mem_pushAll_iff nodup_builtin _ t

theorem mem_names_listTools (r : Registries) (name : String) :
    name ∈ (listTools r).map Tool.name ↔ ∃ source ∈ r.sources, ∃ t ∈ source, t.name = name := by
  rw [listTools_eq, mem_keys_pushAll, ← flatten_sources]
  constructor
  · rintro ⟨t, ht, rfl⟩
    obtain ⟨source, hsource, hmem⟩ := List.mem_flatten.mp ht
    exact ⟨source, hsource, t, hmem, rfl⟩
  · rintro ⟨source, hsource, t, hmem, rfl⟩
    exact ⟨t, List.mem_flatten.mpr ⟨source, hsource, hmem⟩, rfl⟩

theorem mem_names_of_registry (r : Registries) {name : String}
    (h : (∃ t ∈ r.csharp, t.name ∉ deprecatedNames ∧ t.name = name) ∨ (∃ e ∈ r.converted.entries, e.1 = name) ∨
      (∃ t ∈ r.macroTools, t.name = name) ∨ ∃ t ∈ pluginsToRegistryTools r.plugins, t.name = name) :
    name ∈ (listTools r).map Tool.name := by
  rw [mem_names_listTools]
  obtain ⟨t, ht, hdeprecated, hname⟩ | ⟨e, he, hname⟩ | hmacroTool | hplugin := h
  · refine ⟨r.csharp.filter (·.name ∉ deprecatedNames), by simp [Registries.sources], t, ?_, hname⟩
    exact List.mem_filter.mpr ⟨ht, by simpa using hdeprecated⟩
  · exact ⟨r.converted.entries.map Prod.snd, by simp [Registries.sources], e.2, List.mem_map_of_mem he,
      (r.converted.named e he).trans hname⟩
  · exact ⟨r.macroTools, by simp [Registries.sources], hmacroTool⟩
  · exact ⟨pluginsToRegistryTools r.plugins, by simp [Registries.sources], hplugin⟩

/-- **The listing is complete and has no duplicates.**  Every name that a source has is listed once, no other
name is, and what is listed under a name is the definition that the first source with this name gives. -/
theorem listTools_spec (r : Registries) :
    ((listTools r).map Tool.name).Nodup ∧
      (∀ name, name ∈ (listTools r).map Tool.name ↔ ∃ source ∈ r.sources, ∃ t ∈ source, t.name = name) ∧
      ∀ t ∈ listTools r, ∃ higher source lower, r.sources = higher ++ source :: lower ∧
        (∀ s ∈ higher, ∀ u ∈ s, u.name ≠ t.name) ∧ source.find? (fun u => u.name = t.name) = some t := by
  refine ⟨?_, mem_names_listTools r, ?_⟩
  · rw [listTools_eq]
    exact nodup_pushAll nodup_builtin _
  · intro t ht
    have hfirst := (mem_listTools_iff r t).mp ht
    obtain ⟨hname, higher, before, after, lower, hsources, hhigher, hbefore⟩ :=
      List.find?_flatten_eq_some_iff.mp hfirst
    refine ⟨higher, before ++ t :: after, lower, hsources, fun s hs u hu => by simpa using hhigher s hs u hu, ?_⟩
    rw [List.find?_eq_some_iff_append]
    exact ⟨hname, before, after, rfl, hbefore⟩

end VelocityMcp.Registry
