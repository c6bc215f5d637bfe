import VelocityMcp.Lib.Machine
import VelocityMcp.Lib.Tables

/-!
# Lib.Versions — hosts that run the registered version of a program

A host takes programs under names and runs them when they are called.  What it is for: a call runs the version that
was registered last with success.  A source may only name the program, as the path of a file does; then the version is
what is found under it at the registration, whether or not the host looks.
-/

namespace Lib

/-- States `σ`, names `ν`, sources `κ`, the programs `β` that they stand for, the code `δ` that is built from these, and
what registrations (`ρ`) and calls (`γ`) meet outside.  A registration says whether it succeeded, a call which code it
ran. -/
structure Host (σ ν κ β δ ρ γ : Type) where
  start : σ
  /-- What a source stands for at a registration, if it can be read. -/
  read : κ → ρ → Option β
  build : β → δ
  register : σ → ν → κ → ρ → σ × Bool
  call : σ → ν → γ → σ × Option δ
  /-- Nothing outside keeps the call from its program. -/
  reaches : γ → Prop

/-- A host, and the version of each name: what was registered last with success. -/
structure Tracked (σ ν β : Type) where
  host : σ
  version : ν → Option β

inductive HostAction (ν κ ρ γ : Type) where
  | register (name : ν) (source : κ) (a : ρ)
  | call (name : ν) (g : γ)

namespace Host

variable {σ ν κ β δ ρ γ : Type} [DecidableEq ν] (H : Host σ ν κ β δ ρ γ)

def step (t : Tracked σ ν β) : HostAction ν κ ρ γ → Option (Tracked σ ν β)
  | .register name source a =>
    let r := H.register t.host name source a
    some ⟨r.1, if r.2 then Function.update t.version name (H.read source a) else t.version⟩
  | .call name g => some ⟨(H.call t.host name g).1, t.version⟩

def tracked : Tracked σ ν β := ⟨H.start, fun _ => none⟩

variable {H}

end Host

end Lib
