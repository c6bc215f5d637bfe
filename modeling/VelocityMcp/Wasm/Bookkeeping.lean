import VelocityMcp.Lib.Machine
import VelocityMcp.Wasm.Registry

/-!
# Wasm.Bookkeeping — the names registered and the tools of the runtimes

`registry.rs` takes a name that is registered, or whose language is recorded, for a tool of the cached runtime.
This holds in every run without a trap and without a registration that fails (`booked_of_reachable`).  A trap
evicts the runtime and nothing else: the name stays registered, and the next call is refused
(`trapped_not_booked`).
-/

namespace VelocityMcp.Wasm

open Lib NdaNative

/-- Every name registered for a language, or recorded with it, is a tool of the runtime cached for it. -/
def Booked (s : State) : Prop :=
  ∀ language name, name ∈ s.registry language ∨ s.metadata name = some language → s.Holds language name

/-- No registration of this call fails and no guest traps. -/
def QuietCall (_ : State) : Action → Prop
  | .call _ c => c.Quiet
  | .load _ => True

section Invariant

variable {registers : String → String → Prop} {s t : State} {language name : String} {tools : List String}

theorem State.Holds.putRuntime {language' : String} (h : s.Holds language' name)
    (hkeep : language' = language → name ∈ tools) : (s.putRuntime language tools).Holds language' name := by
  obtain ⟨tools', hcache, hname⟩ := h
  by_cases hlang : language' = language
  · subst hlang
    exact ⟨tools, Function.update_self .., hkeep rfl⟩
  · exact ⟨tools', (Function.update_of_ne hlang ..).trans hcache, hname⟩

theorem fresh_booked (h : Fresh s) : Booked s := by
  obtain ⟨-, hregistry, hmetadata, -⟩ := h
  rintro language name (hname | hname)
  · rw [hregistry] at hname
    cases hname
  · rw [hmetadata] at hname
    cases hname

/-- A new runtime replaces none, and a registration adds the name to all three tables. -/
theorem Booked.step (hs : Booked s) (h : Step true registers s t) : Booked t := by
  intro language name hname
  cases h with
  | @created newLanguage hnone _ =>
    have hold := hs language name hname
    refine hold.putRuntime fun hlang => ?_
    obtain ⟨tools, hcache, -⟩ := hold
    rw [hlang, hnone] at hcache
    cases hcache
  | @registered newLanguage newName tools hcache _ _ =>
    have hkeep : s.Holds language name → language = newLanguage → name ∈ newName :: tools := by
      rintro ⟨tools', hcache', hmem⟩ rfl
      obtain rfl := Option.some.inj (hcache'.symm.trans hcache)
      exact List.mem_cons_of_mem newName hmem
    have hnew : (s.putRuntime newLanguage (newName :: tools)).Holds newLanguage newName :=
      ⟨newName :: tools, Function.update_self .., List.mem_cons_self⟩
    have hadd : s.Holds language name → (s.putRuntime newLanguage (newName :: tools)).Holds language name :=
      fun hold => hold.putRuntime (hkeep hold)
    show (s.putRuntime newLanguage (newName :: tools)).Holds language name
    rcases hname with hname | hname
    · change name ∈ Function.update s.registry newLanguage (newName :: s.registry newLanguage) language at hname
      by_cases hlang : language = newLanguage
      · subst hlang
        rw [Function.update_self] at hname
        rcases List.mem_cons.mp hname with rfl | hname
        · exact hnew
        · exact hadd (hs language name (Or.inl hname))
      · rw [Function.update_of_ne hlang] at hname
        exact hadd (hs language name (Or.inl hname))
    · obtain ⟨rfl, rfl⟩ | ⟨-, hold⟩ := update_eq_some hname
      · exact hnew
      · exact hadd (hs language name (Or.inr hold))
  | fallback => exact hs language name hname
  | failed hcalm _ => cases hcalm
  | kept hcalm _ _ => cases hcalm
  | evicted hcalm => cases hcalm

theorem Booked.steps (hs : Booked s) (h : Steps true registers s t) : Booked t := by
  induction h with
  | refl => exact hs
  | tail _ hst ih => exact ih.step hst

end Invariant

/-- **Bookkeeping**: in every run without a failed registration and a trap, what is registered or recorded is a
tool of the cached runtime. -/
theorem booked_of_reachable {f64Text : F64Text} {s : State}
    (h : ReachableWhen Fresh (step f64Text) QuietCall s) : Booked s := by
  refine h.invariant (fun _ => fresh_booked) fun s a s' hs hquiet hstep => ?_
  cases a with
  | call r c =>
    obtain rfl := Option.some.inj hstep
    have hsteps : Steps true (fun _ _ => True) s (serve f64Text s r c).state :=
      steps_serve f64Text (fun _ _ => trivial)
        (Or.inr ⟨fun language hlang => hs language r.name (Or.inr hlang), hquiet⟩)
    exact hs.steps hsteps
  | load plugins =>
    obtain rfl := Option.some.inj hstep
    exact hs

/-! ## A trap -/

/-- A process with these plugins, before its first call. -/
def started (plugins : List (List PluginTool)) : State := ⟨plugins, fun _ => none, fun _ => [], fun _ => none, []⟩

theorem fresh_started (plugins : List (List PluginTool)) : Fresh (started plugins) :=
  ⟨fun _ => rfl, fun _ => rfl, fun _ => rfl, rfl⟩

/-- A Lua tool with its source in the manifest. -/
def shout : PluginTool := ⟨"shout", "wasm", some "lua", some "function shout(a) return a end", none⟩

/-- Everything outside succeeds, and the guest comes to `g`. -/
def allGoesWell (g : GuestAnswer) : CallAnswers :=
  let a : Answers := ⟨.ok "", .ok (), .ok, g⟩
  ⟨a, a, a, a, false, true, .ok ""⟩

theorem quiet_allGoesWell (output : String) : (allGoesWell (.ok output)).Quiet := by
  have h : (allGoesWell (.ok output)).first.Quiet := ⟨rfl, fun _ _ hcall => by cases hcall⟩
  exact ⟨h, h, h, h⟩

def shoutTrapped : Done String :=
  serve (fun _ => []) (started [[shout]]) (.json "shout" .null) (allGoesWell (.error "unreachable" true))

def shoutAgain : Done String :=
  serve (fun _ => []) shoutTrapped.state (.json "shout" .null) (allGoesWell (.ok "null"))

/-- After the first call of a tool that was loaded at the start. -/
theorem booked_of_reachable_shout :
    Booked (serve (fun _ => []) (started [[shout]]) (.json "shout" .null) (allGoesWell (.ok "null"))).state :=
  booked_of_reachable (.step (a := .call (.json "shout" .null) (allGoesWell (.ok "null")))
    (.init (fresh_started [[shout]])) (quiet_allGoesWell "null") rfl)

/-- After the trap the name is registered and no runtime has the tool; the next call makes a runtime without it, and
is refused as a second registration. -/
theorem trapped_not_booked :
    ReachableWhen Fresh (step fun _ => []) (fun _ _ => True) shoutTrapped.state ∧ ¬ Booked shoutTrapped.state ∧
      shoutAgain.starts = [] ∧ shoutAgain.result = .error (.duplicate "shout" "lua") ∧
      ReachableWhen Fresh (step fun _ => []) (fun _ _ => True) shoutAgain.state ∧
      shoutAgain.state.cache "lua" = some [] ∧ ¬ Booked shoutAgain.state := by
  have htrapped : ReachableWhen Fresh (step fun _ => []) (fun _ _ => True) shoutTrapped.state :=
    .step (a := .call (.json "shout" .null) (allGoesWell (.error "unreachable" true)))
      (.init (fresh_started [[shout]])) trivial rfl
  have hregistry : "shout" ∈ shoutTrapped.state.registry "lua" := by decide +kernel
  have hregistry' : "shout" ∈ shoutAgain.state.registry "lua" := by decide +kernel
  have hcache : shoutTrapped.state.cache "lua" = none := by decide +kernel
  have hcache' : shoutAgain.state.cache "lua" = some [] := by decide +kernel
  have hagain : ReachableWhen Fresh (step fun _ => []) (fun _ _ => True) shoutAgain.state :=
    .step (a := .call (.json "shout" .null) (allGoesWell (.ok "null"))) htrapped trivial rfl
  refine ⟨htrapped, fun h => ?_, by decide +kernel, by decide +kernel, hagain, hcache', fun h => ?_⟩
  · obtain ⟨tools, hsome, -⟩ := h "lua" "shout" (Or.inl hregistry)
    rw [hcache] at hsome
    cases hsome
  · obtain ⟨tools, hsome, hmem⟩ := h "lua" "shout" (Or.inl hregistry')
    obtain rfl := Option.some.inj (hcache'.symm.trans hsome)
    cases hmem

end VelocityMcp.Wasm
