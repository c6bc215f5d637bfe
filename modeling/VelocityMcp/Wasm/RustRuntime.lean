import Mathlib.Logic.Relation
import VelocityMcp.Lib.Machine
import VelocityMcp.Lib.Tables
import VelocityMcp.Wasm.Slots

/-!
# Wasm.RustRuntime — Rust tools as WASM modules of their own (`wasm_runtime/rust.rs`)

Each tool has an instance and a memory, but all instances get their WASI imports from one `WasiEnv`, whose memory
is the one of the last instance made.
-/

namespace VelocityMcp.Wasm

open Lib

/-! ## Guests -/

/-- One step of a guest: on its own memory, or a WASI import, given by what it does to the memory it works on (none:
an access of it fails, and the host function panics). -/
inductive GuestStep where
  | compute (f : GuestMemory → GuestMemory)
  | wasi (f : GuestMemory → Option GuestMemory)

structure GuestRun (α : Type) where
  steps : List GuestStep
  result : Except String α

/-- A compiled module, with the source that `register_tool` was given. -/
structure Module where
  source : String
  wasm : Bytes
deriving DecidableEq, Repr

structure Instance where
  module : Module
  memory : ℕ
deriving DecidableEq, Repr

/-- What an operation meets outside: the file that the source names, if there is one, the compiler, the linker, and
the functions of the module. -/
structure ModuleAnswers where
  file : Option (Except String Bytes)
  compile : Except String Unit
  link : Except String Unit
  initial : GuestMemory
  startSection : GuestRun Unit
  exportsMemory : Except String Unit
  start : Option (GuestRun Unit)
  getInputPtr : Except String (GuestRun UInt32)
  toolExecute : Except String (GuestRun UInt64)

/-! ## The runtime -/

/-- A call of a WASI import: the tool whose instance made it, the memory of that instance, whether it was in its start
section, the memory that the import worked on, and the tool instantiated last. -/
structure HostCall where
  tool : String
  own : ℕ
  starting : Bool
  used : Option ℕ
  last : Option String
deriving DecidableEq, Repr

/-- The modules and instances by tool, `WasiEnv::memory`, and the memories in the store.  The code keeps neither the
tool instantiated last nor the calls of the imports. -/
structure RustRuntime where
  modules : String → Option Module
  instances : String → Option Instance
  memory : Option ℕ
  memories : ℕ → GuestMemory
  made : ℕ
  last : Option String
  hostCalls : List HostCall

namespace RustRuntime

/-- `new`: no modules, no instances, and no memory bound to the environment. -/
def new : RustRuntime where
  modules _ := none
  instances _ := none
  memory := none
  memories _ := ⟨fun _ => 0, 0, Nat.zero_le _⟩
  made := 0
  last := none
  hostCalls := []

def setMemory (rt : RustRuntime) (m : ℕ) (memory : GuestMemory) : RustRuntime :=
  { rt with memories := Function.update rt.memories m memory }

def newMemory (rt : RustRuntime) (initial : GuestMemory) : RustRuntime :=
  { rt.setMemory rt.made initial with made := rt.made + 1 }

def useMemory (rt : RustRuntime) (name : String) (own : ℕ) : RustRuntime :=
  { rt with memory := some own, last := some name }

def insertModule (rt : RustRuntime) (name : String) (module : Module) : RustRuntime :=
  { rt with modules := Function.update rt.modules name (some module) }

def insertInstance (rt : RustRuntime) (name : String) (i : Instance) : RustRuntime :=
  { rt with instances := Function.update rt.instances name (some i) }

def record (rt : RustRuntime) (c : HostCall) : RustRuntime := { rt with hostCalls := c :: rt.hostCalls }

/-- A WASI import: it works on the memory of `WasiEnv`, and panics where there is none. -/
def callWasi (rt : RustRuntime) (tool : String) (own : ℕ) (starting : Bool) (f : GuestMemory → Option GuestMemory) :
    RustRuntime × Outcome String Unit :=
  let rt' := rt.record ⟨tool, own, starting, rt.memory, rt.last⟩
  match rt.memory.bind fun m => (f (rt.memories m)).map fun memory => (m, memory) with
  | none => (rt', .panic)
  | some (m, memory) => (rt'.setMemory m memory, .ok ())

/-- The steps of a guest with the memory `own`. -/
def runSteps (tool : String) (own : ℕ) (starting : Bool) (rt : RustRuntime) :
    List GuestStep → RustRuntime × Outcome String Unit
  | [] => (rt, .ok ())
  | .compute f :: steps => runSteps tool own starting (rt.setMemory own (f (rt.memories own))) steps
  | .wasi f :: steps => match rt.callWasi tool own starting f with
    | (rt, .ok ()) => runSteps tool own starting rt steps
    | (rt, .err e) => (rt, .err e)
    | (rt, .panic) => (rt, .panic)

def runGuest {α : Type} (rt : RustRuntime) (tool : String) (own : ℕ) (starting : Bool) (r : GuestRun α) :
    RustRuntime × Outcome String α :=
  match rt.runSteps tool own starting r.steps with
  | (rt, .ok ()) => (rt, .ofExcept r.result)
  | (rt, .err e) => (rt, .err e)
  | (rt, .panic) => (rt, .panic)

/-- `_start`, if it is exported; how it ends is not looked at. -/
def runStart (rt : RustRuntime) (tool : String) (own : ℕ) (start : Option (GuestRun Unit)) :
    RustRuntime × Outcome String Unit :=
  match start with
  | none => (rt, .ok ())
  | some r => match rt.runGuest tool own false r with
    | (rt, .ok ()) => (rt, .ok ())
    | (rt, .err _) => (rt, .ok ())
    | (rt, .panic) => (rt, .panic)

/-- `Instance::new`: a new memory, and the start section, which runs before `WasiEnv` has that memory. -/
def newInstance (rt : RustRuntime) (name : String) (a : ModuleAnswers) : RustRuntime × Outcome String ℕ :=
  match a.link with
  | .error e => (rt, .err e)
  | .ok () =>
    match (rt.newMemory a.initial).runGuest name rt.made true a.startSection with
    | (rt', .ok ()) => (rt', .ok rt.made)
    | (rt', .err e) => (rt', .err e)
    | (rt', .panic) => (rt', .panic)

def ensureInstantiated (rt : RustRuntime) (name : String) (a : ModuleAnswers) : RustRuntime × Outcome String Instance :=
  match rt.instances name with
  | some i => (rt, .ok i)
  | none => match rt.modules name with
    | none => (rt, .err s!"Tool not loaded: {name}")
    | some module => match rt.newInstance name a with
      | (rt, .err e) => (rt, .err e)
      | (rt, .panic) => (rt, .panic)
      | (rt, .ok own) => match a.exportsMemory with
        | .error e => (rt, .err e)
        | .ok () =>
          match (rt.useMemory name own).runStart name own a.start with
          | (rt, .ok ()) => (rt.insertInstance name ⟨module, own⟩, .ok ⟨module, own⟩)
          | (rt, .err e) => (rt, .err e)
          | (rt, .panic) => (rt, .panic)

/-- `register_tool`: the bytes of the file, or the source itself; `load_tool` replaces the module. -/
def registerTool (rt : RustRuntime) (name source : String) (a : ModuleAnswers) : RustRuntime × Outcome String Unit :=
  match a.file.getD (.ok (utf8 source)) with
  | .error e => (rt, .err e)
  | .ok wasm => match a.compile with
    | .error e => (rt, .err e)
    | .ok () =>
      match (rt.insertModule name ⟨source, wasm⟩).ensureInstantiated name a with
      | (rt, .ok _) => (rt, .ok ())
      | (rt, .err e) => (rt, .err e)
      | (rt, .panic) => (rt, .panic)

/-- What a call comes to: the module whose instance it runs, if it gets to one, and the bytes of the result. -/
structure Called where
  runtime : RustRuntime
  module : Option Module
  result : Outcome String Bytes

def outOfBounds : String := "memory access out of bounds"

/-- `tool_execute` returns the address of the result and its length in one `i64`. -/
def readResult (memory : GuestMemory) (encoded : UInt64) : Outcome String Bytes :=
  let ptr := encoded.toNat / 2 ^ 32
  let len := encoded.toNat % 2 ^ 32
  if memory.size < ptr + len then .err outOfBounds
  else .ok ((List.range len).map fun i => memory.bytes (ptr + i))

/-- `input_ptr as u64` of an `i32`. -/
def inputAddress (ptr : UInt32) : ℕ := ptr.toInt32.toInt64.toUInt64.toNat

/-- `call_tool`; `GuestRun` is what a guest's function does when it runs. -/
def callTool (rt : RustRuntime) (name : String) (argsJson : Bytes) (a : ModuleAnswers) : Called :=
  match rt.ensureInstantiated name a with
  | (rt, .err e) => ⟨rt, none, .err e⟩
  | (rt, .panic) => ⟨rt, none, .panic⟩
  | (rt, .ok i) => match a.getInputPtr with
    | .error e => ⟨rt, none, .err e⟩
    | .ok r => match rt.runGuest name i.memory false r with
      | (rt, .err e) => ⟨rt, some i.module, .err e⟩
      | (rt, .panic) => ⟨rt, some i.module, .panic⟩
      | (rt, .ok ptr) => match (rt.memories i.memory).write (inputAddress ptr) argsJson with
        | .err _ => ⟨rt, some i.module, .err outOfBounds⟩
        | .panic => ⟨rt, some i.module, .panic⟩
        | .ok memory => match a.toolExecute with
          | .error e => ⟨rt.setMemory i.memory memory, some i.module, .err e⟩
          | .ok r => match (rt.setMemory i.memory memory).runGuest name i.memory false r with
            | (rt, .err e) => ⟨rt, some i.module, .err e⟩
            | (rt, .panic) => ⟨rt, some i.module, .panic⟩
            | (rt, .ok encoded) => ⟨rt, some i.module, readResult (rt.memories i.memory) encoded⟩

/-! ## Runs of operations -/

/-- A registration or a call, with what the engine and the guest answer. -/
inductive Operation where
  | register (name source : String) (a : ModuleAnswers)
  | call (name : String) (argsJson : Bytes) (a : ModuleAnswers)

/-- The runtime after an operation. -/
def step (rt : RustRuntime) : Operation → Option RustRuntime
  | .register name source a => some (rt.registerTool name source a).1
  | .call name argsJson a => some (rt.callTool name argsJson a).runtime

/-! ## What an operation does -/

/-- One change of the runtime; imports are called as `allows` lets them. -/
inductive Move (allows : HostCall → Prop) : RustRuntime → RustRuntime → Prop where
  | wrote {rt : RustRuntime} {m : ℕ} {memory : GuestMemory} : Move allows rt (rt.setMemory m memory)
  | called {rt : RustRuntime} {c : HostCall} : allows c → Move allows rt (rt.record c)
  | loaded {rt : RustRuntime} {name : String} {module : Module} :
      Move allows rt (rt.insertModule name module)
  | made {rt : RustRuntime} {initial : GuestMemory} : Move allows rt (rt.newMemory initial)
  | entered {rt : RustRuntime} {name : String} {own : ℕ} : own < rt.made → rt.instances name = none →
      (∀ n i, rt.instances n = some i → i.memory ≠ own) →
      Move allows rt (rt.useMemory name own)
  | kept {rt : RustRuntime} {name : String} {i : Instance} : rt.memory = some i.memory → rt.last = some name →
      rt.instances name = none → (∀ n j, rt.instances n = some j → j.memory ≠ i.memory) →
      Move allows rt (rt.insertInstance name i)

/-- Any number of changes. -/
abbrev Moves (allows : HostCall → Prop) : RustRuntime → RustRuntime → Prop := Relation.ReflTransGen (Move allows)

/-- The memories of the instances and of `WasiEnv` are in the store, no two instances share one, and `WasiEnv` has the
memory of the tool instantiated last. -/
structure Separate (rt : RustRuntime) : Prop where
  instances_lt : ∀ n i, rt.instances n = some i → i.memory < rt.made
  memory_lt : ∀ m, rt.memory = some m → m < rt.made
  injective : ∀ n n' i i', rt.instances n = some i → rt.instances n' = some i' → i.memory = i'.memory → n = n'
  last : ∀ n i, rt.instances n = some i → (rt.memory = some i.memory ↔ rt.last = some n)

section Moves

variable {allows : HostCall → Prop} {rt rt' : RustRuntime}

theorem Separate.move (h : Separate rt) (hm : Move allows rt rt') : Separate rt' := by
  cases hm with
  | wrote => exact ⟨h.instances_lt, h.memory_lt, h.injective, h.last⟩
  | called _ => exact ⟨h.instances_lt, h.memory_lt, h.injective, h.last⟩
  | loaded => exact ⟨h.instances_lt, h.memory_lt, h.injective, h.last⟩
  | made =>
    exact ⟨fun n i hi => Nat.lt_succ_of_lt (h.instances_lt n i hi), fun m hm => Nat.lt_succ_of_lt (h.memory_lt m hm),
      h.injective, h.last⟩
  | @entered name own hlt hnone hfresh =>
    refine ⟨h.instances_lt, fun m hm => ?_, h.injective, fun n i hi => ?_⟩
    · obtain rfl := Option.some.inj hm
      exact hlt
    · constructor
      · intro hown
        exact absurd (Option.some.inj hown).symm (hfresh n i hi)
      · intro hlast
        obtain rfl := Option.some.inj hlast
        cases hnone.symm.trans hi
  | @kept name j hmem hlast hnone hfresh =>
    -- Of two instances one is the new one or both are old.
    refine ⟨fun n i hi => ?_, h.memory_lt, fun n n' i i' hi hi' heq => ?_, fun n i hi => ?_⟩
    · obtain ⟨-, rfl⟩ | ⟨-, hold⟩ := update_eq_some hi
      · exact h.memory_lt _ hmem
      · exact h.instances_lt n i hold
    · obtain ⟨rfl, rfl⟩ | ⟨-, hold⟩ := update_eq_some hi
      · obtain ⟨rfl, -⟩ | ⟨-, hold'⟩ := update_eq_some hi'
        · rfl
        · exact absurd heq.symm (hfresh n' i' hold')
      · obtain ⟨rfl, rfl⟩ | ⟨-, hold'⟩ := update_eq_some hi'
        · exact absurd heq (hfresh n i hold)
        · exact h.injective n n' i i' hold hold' heq
    · obtain ⟨rfl, rfl⟩ | ⟨-, hold⟩ := update_eq_some hi
      · exact ⟨fun _ => hlast, fun _ => hmem⟩
      · exact h.last n i hold

theorem Separate.moves (h : Separate rt) (hm : Moves allows rt rt') : Separate rt' := by
  induction hm with
  | refl => exact h
  | tail _ hm ih => exact ih.move hm

theorem Moves.hostCalls (hm : Moves allows rt rt') {c : HostCall} (hc : c ∈ rt'.hostCalls) :
    c ∈ rt.hostCalls ∨ allows c := by
  induction hm with
  | refl => exact Or.inl hc
  | @tail u v _ hm ih =>
    cases hm with
    | called hallows =>
      rcases List.mem_cons.mp hc with rfl | hc
      · exact Or.inr hallows
      · exact ih hc
    | _ => exact ih hc

theorem Moves.instances (hm : Moves allows rt rt') {name : String} {i : Instance} (hi : rt.instances name = some i) :
    rt'.instances name = some i := by
  induction hm with
  | refl => exact hi
  | @tail u v _ hm ih =>
    cases hm with
    | @kept newName j _ _ hnone _ =>
      show Function.update u.instances newName (some j) name = some i
      have hname : name ≠ newName := by
        rintro rfl
        cases hnone.symm.trans ih
      rw [Function.update_of_ne hname]
      exact ih
    | _ => exact ih

/-- What guest code leaves alone. -/
structure Same (rt rt' : RustRuntime) : Prop where
  modules : rt'.modules = rt.modules
  instances : rt'.instances = rt.instances
  memory : rt'.memory = rt.memory
  made : rt'.made = rt.made
  last : rt'.last = rt.last

theorem Same.refl (rt : RustRuntime) : Same rt rt := ⟨rfl, rfl, rfl, rfl, rfl⟩

theorem Same.trans {rt'' : RustRuntime} (h : Same rt rt') (h' : Same rt' rt'') : Same rt rt'' :=
  ⟨h'.modules.trans h.modules, h'.instances.trans h.instances, h'.memory.trans h.memory, h'.made.trans h.made,
    h'.last.trans h.last⟩

def HostFree {α : Type} (r : GuestRun α) : Prop := ∀ f, GuestStep.wasi f ∉ r.steps

variable {tool name : String} {own : ℕ} {starting : Bool} {steps : List GuestStep} {a : ModuleAnswers}

theorem moves_callWasi {f : GuestMemory → Option GuestMemory}
    (hallows : allows ⟨tool, own, starting, rt.memory, rt.last⟩) :
    Moves allows rt (rt.callWasi tool own starting f).1 ∧ Same rt (rt.callWasi tool own starting f).1 := by
  have hcalled : Move allows rt (rt.record ⟨tool, own, starting, rt.memory, rt.last⟩) := .called hallows
  rw [callWasi]
  cases rt.memory.bind fun m => (f (rt.memories m)).map fun memory => (m, memory) with
  | none => exact ⟨.single hcalled, rfl, rfl, rfl, rfl, rfl⟩
  | some p => exact ⟨.tail (.single hcalled) .wrote, rfl, rfl, rfl, rfl, rfl⟩

theorem moves_runSteps
    (hallows : ∀ f, GuestStep.wasi f ∈ steps → allows ⟨tool, own, starting, rt.memory, rt.last⟩) :
    Moves allows rt (runSteps tool own starting rt steps).1 ∧ Same rt (runSteps tool own starting rt steps).1 := by
  induction steps generalizing rt with
  | nil => exact ⟨.refl, .refl rt⟩
  | cons st steps ih =>
    have hrest : ∀ f, GuestStep.wasi f ∈ steps → allows ⟨tool, own, starting, rt.memory, rt.last⟩ :=
      fun f hf => hallows f (List.mem_cons_of_mem st hf)
    cases st with
    | compute f =>
      have hwrote : ∀ g, GuestStep.wasi g ∈ steps →
          allows ⟨tool, own, starting, (rt.setMemory own (f (rt.memories own))).memory, rt.last⟩ := hrest
      obtain ⟨hmoves, hsame⟩ := ih hwrote
      have hset : Same rt (rt.setMemory own (f (rt.memories own))) := ⟨rfl, rfl, rfl, rfl, rfl⟩
      rw [runSteps]
      exact ⟨.head .wrote hmoves, hset.trans hsame⟩
    | wasi f =>
      obtain ⟨hmoves, hsame⟩ := moves_callWasi (f := f) (hallows f List.mem_cons_self)
      rw [runSteps]
      rcases hcall : rt.callWasi tool own starting f with ⟨u, r⟩
      rw [hcall] at hmoves hsame
      cases r with
      | ok _ =>
        rw [← hsame.memory, ← hsame.last] at hrest
        obtain ⟨hmoves', hsame'⟩ := ih hrest
        exact ⟨hmoves.trans hmoves', hsame.trans hsame'⟩
      | err e => exact ⟨hmoves, hsame⟩
      | panic => exact ⟨hmoves, hsame⟩

theorem moves_runGuest {α : Type} {r : GuestRun α}
    (hallows : HostFree r ∨ allows ⟨tool, own, starting, rt.memory, rt.last⟩) :
    Moves allows rt (rt.runGuest tool own starting r).1 ∧ Same rt (rt.runGuest tool own starting r).1 := by
  have hsteps : ∀ f, GuestStep.wasi f ∈ r.steps → allows ⟨tool, own, starting, rt.memory, rt.last⟩ :=
    fun f hf => hallows.resolve_left fun hfree => hfree f hf
  have hrun := moves_runSteps hsteps
  rw [runGuest]
  rcases hend : rt.runSteps tool own starting r.steps with ⟨u, r'⟩
  rw [hend] at hrun
  cases r' <;> exact hrun

theorem moves_runStart {start : Option (GuestRun Unit)}
    (hallows : allows ⟨tool, own, false, rt.memory, rt.last⟩) :
    Moves allows rt (rt.runStart tool own start).1 ∧ Same rt (rt.runStart tool own start).1 := by
  unfold runStart
  cases start with
  | none => exact ⟨.refl, .refl rt⟩
  | some r =>
    have hrun := moves_runGuest (r := r) (Or.inr hallows)
    simp only
    rcases hguest : rt.runGuest tool own false r with ⟨u, r'⟩
    rw [hguest] at hrun
    cases r' <;> exact hrun

theorem moves_newInstance
    (hallows : HostFree a.startSection ∨ allows ⟨name, rt.made, true, rt.memory, rt.last⟩) :
    Moves allows rt (rt.newInstance name a).1 ∧ (rt.newInstance name a).1.instances = rt.instances ∧
      ∀ own, (rt.newInstance name a).2 = .ok own → own = rt.made ∧ own < (rt.newInstance name a).1.made := by
  unfold newInstance
  cases a.link with
  | error e => exact ⟨.refl, rfl, fun own h => by cases h⟩
  | ok u =>
    simp only
    have hmade : Moves allows rt (rt.newMemory a.initial) := .single .made
    obtain ⟨hmoves, hsame⟩ : Moves allows (rt.newMemory a.initial) _ ∧ Same _ _ :=
      moves_runGuest hallows
    rcases hguest : (rt.newMemory a.initial).runGuest name rt.made true a.startSection with ⟨v, r⟩
    rw [hguest] at hmoves hsame
    cases r with
    | ok _ =>
      refine ⟨hmade.trans hmoves, hsame.instances, fun own hown => ?_⟩
      obtain rfl := Outcome.ok.inj hown
      refine ⟨rfl, ?_⟩
      show rt.made < v.made
      rw [hsame.made]
      exact Nat.lt_succ_self _
    | err e => exact ⟨hmade.trans hmoves, hsame.instances, fun own h => by cases h⟩
    | panic => exact ⟨hmade.trans hmoves, hsame.instances, fun own h => by cases h⟩

/-- **One instantiation**: the tool had its instance, or gets one, whose memory `WasiEnv` then has. -/
theorem moves_ensureInstantiated (hs : Separate rt)
    (hstart : rt.instances name = none →
      HostFree a.startSection ∨ allows ⟨name, rt.made, true, rt.memory, rt.last⟩)
    (hallows : allows ⟨name, rt.made, false, some rt.made, some name⟩) :
    Moves allows rt (rt.ensureInstantiated name a).1 ∧
      ∀ i, (rt.ensureInstantiated name a).2 = .ok i →
        (rt.ensureInstantiated name a).1.instances name = some i ∧
          ((rt.ensureInstantiated name a).1 = rt ∨ (rt.ensureInstantiated name a).1.last = some name) := by
  unfold ensureInstantiated
  cases hinst : rt.instances name with
  -- an instance that is there stays, whatever has been registered since
  | some i =>
    refine ⟨.refl, fun j hj => ?_⟩
    obtain rfl := Outcome.ok.inj hj
    exact ⟨hinst, Or.inl rfl⟩
  | none =>
    simp only
    cases hmod : rt.modules name with
    | none => exact ⟨.refl, fun i h => by cases h⟩
    | some module =>
      simp only
      obtain ⟨hmoves, hinstances, hown⟩ := moves_newInstance (hstart hinst)
      rcases hnew : rt.newInstance name a with ⟨v, r⟩
      rw [hnew] at hmoves hinstances hown
      cases r with
      | err e => exact ⟨hmoves, fun i h => by cases h⟩
      | panic => exact ⟨hmoves, fun i h => by cases h⟩
      | ok own =>
        obtain ⟨rfl, hlt⟩ := hown own rfl
        simp only
        cases a.exportsMemory with
        | error e => exact ⟨hmoves, fun i h => by cases h⟩
        | ok u =>
          simp only
          have hfresh : ∀ n i, v.instances n = some i → i.memory ≠ rt.made := by
            intro n i hi
            rw [hinstances] at hi
            exact (hs.instances_lt n i hi).ne
          have hnone : v.instances name = none := by rw [hinstances]; exact hinst
          -- from here `WasiEnv` has the new memory, and `_start` runs with it
          have hentered : Moves allows rt (v.useMemory name rt.made) :=
            hmoves.tail (.entered hlt hnone hfresh)
          obtain ⟨hmoves', hsame⟩ : Moves allows (v.useMemory name rt.made) _ ∧ Same _ _ :=
            moves_runStart hallows
          rcases hrun : (v.useMemory name rt.made).runStart name rt.made a.start with ⟨w, r⟩
          rw [hrun] at hmoves' hsame
          cases r with
          | err e => exact ⟨hentered.trans hmoves', fun i h => by cases h⟩
          | panic => exact ⟨hentered.trans hmoves', fun i h => by cases h⟩
          | ok u =>
            refine ⟨(hentered.trans hmoves').tail (.kept hsame.memory hsame.last ?_ ?_), fun i hi => ?_⟩
            · rw [hsame.instances]
              exact hnone
            · rw [hsame.instances]
              exact hfresh
            · obtain rfl := Outcome.ok.inj hi
              exact ⟨Function.update_self .., Or.inr hsame.last⟩

theorem moves_registerTool {source : String} (hs : Separate rt)
    (hstart : rt.instances name = none →
      HostFree a.startSection ∨ allows ⟨name, rt.made, true, rt.memory, rt.last⟩)
    (hallows : allows ⟨name, rt.made, false, some rt.made, some name⟩) :
    Moves allows rt (rt.registerTool name source a).1 := by
  unfold registerTool
  cases a.file.getD (.ok (utf8 source)) with
  | error e => exact .refl
  | ok wasm =>
    simp only
    cases a.compile with
    | error e => exact .refl
    | ok u =>
      simp only
      have hloaded : Moves allows rt (rt.insertModule name ⟨source, wasm⟩) := .single .loaded
      obtain ⟨hmoves, -⟩ : Moves allows (rt.insertModule name ⟨source, wasm⟩) _ ∧ _ :=
        moves_ensureInstantiated (hs.moves hloaded) hstart hallows
      rcases hrun : (rt.insertModule name ⟨source, wasm⟩).ensureInstantiated name a with ⟨v, r⟩
      rw [hrun] at hmoves
      cases r <;> exact hloaded.trans hmoves

/-- **One call**: its functions may call imports where that is allowed with the tool's own memory and the memory that
`WasiEnv` has then. -/
theorem moves_callTool {argsJson : Bytes} (hs : Separate rt)
    (hstart : rt.instances name = none →
      HostFree a.startSection ∨ allows ⟨name, rt.made, true, rt.memory, rt.last⟩)
    (hallows : allows ⟨name, rt.made, false, some rt.made, some name⟩)
    (hcall : ∀ v i, Separate v → v.instances name = some i → (v = rt ∨ v.last = some name) →
      ((∀ r, a.getInputPtr = .ok r → HostFree r) ∧ (∀ r, a.toolExecute = .ok r → HostFree r)) ∨
        allows ⟨name, i.memory, false, v.memory, v.last⟩) :
    Moves allows rt (rt.callTool name argsJson a).runtime := by
  obtain ⟨hmoves, hinstance⟩ := moves_ensureInstantiated hs hstart hallows
  unfold callTool
  rcases hensure : rt.ensureInstantiated name a with ⟨v, r⟩
  rw [hensure] at hmoves hinstance
  cases r with
  | err e => exact hmoves
  | panic => exact hmoves
  | ok i =>
    obtain ⟨hinst, hlast⟩ := hinstance i rfl
    have hfree := hcall v i (hs.moves hmoves) hinst hlast
    simp only
    cases hptr : a.getInputPtr with
    | error e => exact hmoves
    | ok r =>
      simp only
      -- `get_input_ptr` may call imports itself
      obtain ⟨hmoves₁, hsame₁⟩ : Moves allows v (v.runGuest name i.memory false r).1 ∧ Same v _ :=
        moves_runGuest (hfree.imp_left fun h => h.1 r hptr)
      rcases hrun : v.runGuest name i.memory false r with ⟨w, r'⟩
      rw [hrun] at hmoves₁ hsame₁
      cases r' with
      | err e => exact hmoves.trans hmoves₁
      | panic => exact hmoves.trans hmoves₁
      | ok ptr =>
        simp only
        cases (w.memories i.memory).write (inputAddress ptr) argsJson with
        | err e => exact hmoves.trans hmoves₁
        | panic => exact hmoves.trans hmoves₁
        | ok memory =>
          simp only
          have hwritten : Moves allows rt (w.setMemory i.memory memory) := (hmoves.trans hmoves₁).tail .wrote
          cases hexec : a.toolExecute with
          | error e => exact hwritten
          | ok r₂ =>
            simp only
            -- `tool_execute`, with the memory that the environment still has
            obtain ⟨hmoves₂, -⟩ : Moves allows (w.setMemory i.memory memory)
                ((w.setMemory i.memory memory).runGuest name i.memory false r₂).1 ∧ Same _ _ := by
              refine moves_runGuest (hfree.imp (fun h => h.2 r₂ hexec) fun h => ?_)
              show allows ⟨name, i.memory, false, w.memory, w.last⟩
              rw [hsame₁.memory, hsame₁.last]
              exact h
            rcases hrun₂ : (w.setMemory i.memory memory).runGuest name i.memory false r₂ with ⟨x, r'⟩
            rw [hrun₂] at hmoves₂
            cases r' <;> exact hwritten.trans hmoves₂

/-! ### What is registered and what is run -/

theorem ensureInstantiated_of_instance {i : Instance} (hi : rt.instances name = some i) :
    rt.ensureInstantiated name a = (rt, .ok i) := by
  rw [ensureInstantiated, hi]

theorem ensureInstantiated_module {module : Module} {i : Instance} (hnone : rt.instances name = none)
    (hmod : rt.modules name = some module) (h : (rt.ensureInstantiated name a).2 = .ok i) : i.module = module := by
  rw [ensureInstantiated, hnone] at h
  simp only at h
  rw [hmod] at h
  simp only at h
  rcases hnew : rt.newInstance name a with ⟨v, r⟩
  rw [hnew] at h
  cases r with
  | err e => cases h
  | panic => cases h
  | ok own =>
    simp only at h
    cases hmem : a.exportsMemory with
    | error e => rw [hmem] at h; cases h
    | ok u =>
      rw [hmem] at h
      simp only at h
      rcases hrun : (v.useMemory name own).runStart name own a.start with ⟨w, r⟩
      rw [hrun] at h
      cases r with
      | err e => cases h
      | panic => cases h
      | ok u =>
        obtain rfl := Outcome.ok.inj h
        rfl

theorem registerTool_eq (rt : RustRuntime) (name : String) {source : String} {wasm : Bytes}
    (hfile : a.file.getD (.ok (utf8 source)) = .ok wasm) (hcompile : a.compile = .ok ()) :
    (rt.registerTool name source a).1 = ((rt.insertModule name ⟨source, wasm⟩).ensureInstantiated name a).1 ∧
      ((rt.registerTool name source a).2 = .ok () →
        ∃ i, ((rt.insertModule name ⟨source, wasm⟩).ensureInstantiated name a).2 = .ok i) := by
  unfold registerTool
  rw [hfile]
  simp only
  rw [hcompile]
  simp only
  rcases (rt.insertModule name ⟨source, wasm⟩).ensureInstantiated name a with ⟨v, r⟩
  cases r with
  | ok i => exact ⟨rfl, fun _ => ⟨i, rfl⟩⟩
  | err e => exact ⟨rfl, fun h => by cases h⟩
  | panic => exact ⟨rfl, fun h => by cases h⟩

theorem registerTool_ok {source : String} (h : (rt.registerTool name source a).2 = .ok ()) :
    ∃ wasm, a.file.getD (.ok (utf8 source)) = .ok wasm ∧ a.compile = .ok () := by
  unfold registerTool at h
  cases hfile : a.file.getD (.ok (utf8 source)) with
  | error e => rw [hfile] at h; cases h
  | ok wasm =>
    rw [hfile] at h
    simp only at h
    cases hcompile : a.compile with
    | error e => rw [hcompile] at h; cases h
    | ok u => exact ⟨wasm, rfl, rfl⟩

theorem callTool_module {argsJson : Bytes} {i : Instance} {r : GuestRun UInt32} (hi : rt.instances name = some i)
    (hptr : a.getInputPtr = .ok r) : (rt.callTool name argsJson a).module = some i.module := by
  unfold callTool
  rw [ensureInstantiated_of_instance hi]
  simp only
  rw [hptr]
  simp only
  rcases rt.runGuest name i.memory false r with ⟨w, r'⟩
  cases r' with
  | err e => rfl
  | panic => rfl
  | ok ptr =>
    simp only
    cases (w.memories i.memory).write (inputAddress ptr) argsJson with
    | err e => rfl
    | panic => rfl
    | ok memory =>
      simp only
      cases a.toolExecute with
      | error e => rfl
      | ok r₂ =>
        simp only
        rcases (w.setMemory i.memory memory).runGuest name i.memory false r₂ with ⟨x, r'⟩
        cases r' <;> rfl

end Moves

/-! ## Whose memory an import works on -/

theorem separate_new : Separate new where
  instances_lt _ _ h := by cases h
  memory_lt _ h := by cases h
  injective _ _ _ _ h := by cases h
  last _ _ h := by cases h

theorem moves_step {rt rt' : RustRuntime} {o : Operation} (hs : Separate rt) (h : step rt o = some rt') :
    Moves (fun c => c.used = some c.own ↔ c.starting = false ∧ c.last = some c.tool) rt rt' := by
  have hstarting : ∀ name : String, rt.memory = some rt.made ↔ true = false ∧ rt.last = some name := by
    intro name
    constructor
    · intro hown
      exact absurd (hs.memory_lt _ hown) (Nat.lt_irrefl _)
    · rintro ⟨htrue, -⟩
      cases htrue
  cases o with
  | register name source a =>
    obtain rfl := Option.some.inj h
    exact moves_registerTool hs (fun _ => Or.inr (hstarting name)) (by simp)
  | call name argsJson a =>
    obtain rfl := Option.some.inj h
    refine moves_callTool hs (fun _ => Or.inr (hstarting name)) (by simp) fun v i hv hi _ => Or.inr ?_
    show v.memory = some i.memory ↔ false = false ∧ v.last = some name
    rw [hv.last name i hi]
    exact (and_iff_right rfl).symm

theorem allows_of_reachable {allows : HostCall → Prop} {Ok : RustRuntime → Operation → Prop} {rt : RustRuntime}
    (hmoves : ∀ rt o rt', Separate rt → Ok rt o → step rt o = some rt' → Moves allows rt rt')
    (h : ReachableWhen (· = new) step Ok rt) : ∀ c ∈ rt.hostCalls, allows c := by
  have hinv := h.invariant (I := fun rt => Separate rt ∧ ∀ c ∈ rt.hostCalls, allows c)
    (fun rt hrt => by
      subst hrt
      exact ⟨separate_new, fun c hc => by cases hc⟩)
    (fun rt o rt' hrt hok hstep =>
      have hm := hmoves rt o rt' hrt.1 hok hstep
      ⟨hrt.1.moves hm, fun c hc => (hm.hostCalls hc).elim (hrt.2 c) id⟩)
  exact hinv.2

/-- **Each call of an import**, in every run: it works on the memory of the tool that makes it exactly if this tool is
the last one instantiated, and not in its start section. -/
theorem hostCall_iff {rt : RustRuntime} (h : ReachableWhen (· = new) step (fun _ _ => True) rt) :
    ∀ c ∈ rt.hostCalls, (c.used = some c.own ↔ c.starting = false ∧ c.last = some c.tool) := by
  exact allows_of_reachable (fun _ _ _ hs _ hstep => moves_step hs hstep) h

/-- An operation whose imports are called by the tool instantiated last: no start section calls one, and a call of
another tool calls none. -/
def InPlace (rt : RustRuntime) : Operation → Prop
  | .register name _ a => rt.instances name = none → HostFree a.startSection
  | .call name _ a => (rt.instances name = none → HostFree a.startSection) ∧
      (rt.instances name ≠ none → rt.last ≠ some name →
        (∀ r, a.getInputPtr = .ok r → HostFree r) ∧ ∀ r, a.toolExecute = .ok r → HostFree r)

/-- **Host calls act on the tool's own memory** in every run whose operations are all so. -/
theorem hostCalls_own {rt : RustRuntime} (h : ReachableWhen (· = new) step InPlace rt) :
    ∀ c ∈ rt.hostCalls, c.used = some c.own := by
  refine allows_of_reachable (fun rt o rt' hs hok hstep => ?_) h
  cases o with
  | register name source a =>
    obtain rfl := Option.some.inj hstep
    exact moves_registerTool hs (fun hnone => Or.inl (hok hnone)) rfl
  | call name argsJson a =>
    obtain rfl := Option.some.inj hstep
    refine moves_callTool hs (fun hnone => Or.inl (hok.1 hnone)) rfl fun v i hv hi hlast => ?_
    by_cases hv' : v.last = some name
    · exact Or.inr ((hv.last name i hi).mpr hv')
    · obtain rfl := hlast.resolve_right hv'
      exact Or.inl (hok.2 (by rw [hi]; simp) hv')

/-! ## Two tools -/

/-- The import `clock_time_get`: eight bytes of time are written where the guest asks for them. -/
def clockTimeGet (m : GuestMemory) : Option GuestMemory := (m.write 16 [1, 2, 3, 4, 5, 6, 7, 8]).toOption

/-- A file with a module of one page that asks for the time when it is executed. -/
def clock : ModuleAnswers where
  file := some (.ok [0, 97, 115, 109, 1, 0, 0, 0])
  compile := .ok ()
  link := .ok ()
  initial := ⟨fun _ => 0, 65536, page_le⟩
  startSection := ⟨[], .ok ()⟩
  exportsMemory := .ok ()
  start := none
  getInputPtr := .ok ⟨[], .ok 0⟩
  toolExecute := .ok ⟨[.wasi clockTimeGet], .ok 0⟩

theorem hostFree_clock : HostFree clock.startSection := fun _ hf => by cases hf

def oneClock : RustRuntime := (new.registerTool "a" "a.wasm" clock).1

def twoClocks : RustRuntime := (oneClock.registerTool "b" "b.wasm" clock).1

/-- Tool a is called before tool b is registered. -/
def clockByClock : RustRuntime := ((oneClock.callTool "a" [] clock).runtime.registerTool "b" "b.wasm" clock).1

/-- Each writes the time to its own memory. -/
theorem hostCalls_own_clocks : ∃ c d, (clockByClock.callTool "b" [] clock).runtime.hostCalls = [d, c] ∧
    c.used = some c.own ∧ d.used = some d.own := by
  have hone : ReachableWhen (· = new) step InPlace oneClock :=
    .step (a := .register "a" "a.wasm" clock) (.init rfl) (fun _ => hostFree_clock) rfl
  have ha : InPlace oneClock (.call "a" [] clock) :=
    ⟨fun _ => hostFree_clock, fun _ hlast => absurd (by decide +kernel) hlast⟩
  have htwo : ReachableWhen (· = new) step InPlace clockByClock :=
    .step (a := .register "b" "b.wasm" clock) (.step hone ha rfl) (fun _ => hostFree_clock) rfl
  have hb : InPlace clockByClock (.call "b" [] clock) :=
    ⟨fun _ => hostFree_clock, fun _ hlast => absurd (by decide +kernel) hlast⟩
  have hcalls : (clockByClock.callTool "b" [] clock).runtime.hostCalls =
      [⟨"b", 1, false, some 1, some "b"⟩, ⟨"a", 0, false, some 0, some "a"⟩] := by
    decide +kernel
  have hown := hostCalls_own (.step htwo hb rfl)
  rw [hcalls] at hown
  exact ⟨_, _, hcalls, hown _ (List.mem_cons_of_mem _ List.mem_cons_self), hown _ List.mem_cons_self⟩

/-- Tool a asks for the time after tool b was registered: the time is written to the memory of b, and a finds none. -/
theorem clock_in_other_memory :
    ReachableWhen (· = new) step (fun _ _ => True) (twoClocks.callTool "a" [] clock).runtime ∧
      (twoClocks.callTool "a" [] clock).runtime.hostCalls = [⟨"a", 0, false, some 1, some "b"⟩] ∧
      ((twoClocks.callTool "a" [] clock).runtime.memories 0).bytes 16 = 0 ∧
      ((twoClocks.callTool "a" [] clock).runtime.memories 1).bytes 16 = 1 := by
  have hone : ReachableWhen (· = new) step (fun _ _ => True) oneClock :=
    .step (a := .register "a" "a.wasm" clock) (.init rfl) trivial rfl
  have htwo : ReachableWhen (· = new) step (fun _ _ => True) twoClocks :=
    .step (a := .register "b" "b.wasm" clock) hone trivial rfl
  refine ⟨.step (a := .call "a" [] clock) htwo trivial rfl, by decide +kernel, by decide +kernel, by decide +kernel⟩

/-- The tool that was registered first calls an import. -/
theorem hostCall_iff_clocks : ∃ c, (twoClocks.callTool "a" [] clock).runtime.hostCalls = [c] ∧
    (c.used = some c.own ↔ c.starting = false ∧ c.last = some c.tool) := by
  have hone : ReachableWhen (· = new) step (fun _ _ => True) oneClock :=
    .step (a := .register "a" "a.wasm" clock) (.init rfl) trivial rfl
  have htwo : ReachableWhen (· = new) step (fun _ _ => True) twoClocks :=
    .step (a := .register "b" "b.wasm" clock) hone trivial rfl
  have hcalls : (twoClocks.callTool "a" [] clock).runtime.hostCalls = [⟨"a", 0, false, some 1, some "b"⟩] := by
    decide +kernel
  refine ⟨_, hcalls, hostCall_iff (.step (a := .call "a" [] clock) htwo trivial rfl) _ ?_⟩
  rw [hcalls]
  exact List.mem_cons_self

end RustRuntime

end VelocityMcp.Wasm
