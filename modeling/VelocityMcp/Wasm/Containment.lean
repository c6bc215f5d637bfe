import VelocityMcp.Wasm.WasiFiles

/-!
# Wasm.Containment — do guest paths stay in the preopened directories? (`wasm_runtime/wasi.rs`)

The security check compares components: it asks whether a path starts with a preopened directory, before `.` and `..`
are resolved.
-/

namespace VelocityMcp.Wasm

open Lib

/-! ## Containment -/

section Statement

variable (cwd : List Bytes) (preopens : List PathBuf)

/-- A path lies in a preopened directory, after `.` and `..` are resolved in both; `cwd` is the working directory of
the process. -/
def Inside (path : PathBuf) : Prop :=
  ∃ q ∈ preopens, resolve cwd (components q) <+: resolve cwd (components path)

/-- A call acts on paths in preopened directories only, or on none and returns an error. -/
structure Contained (r : Served) : Prop where
  inside : ∀ op, r.op = some op → ∀ p ∈ op.paths, Inside cwd preopens p
  refused : r.op = none → ∃ e, e ≠ 0 ∧ r.result = .err e

/-- Where a path starts with a preopened directory, what follows leads from that directory into a preopened one. -/
def KeepsIn (path : PathBuf) : Prop :=
  ∀ p ∈ preopens, ∀ ds, components path = components p ++ ds →
    ∃ q ∈ preopens, LeadsInto (resolve cwd (components p)) ds (resolve cwd (components q))

end Statement

/-- The paths that a call names. -/
def PathCall.args : PathCall → List PathArg
  | pathOpen dir _ _ => [dir]
  | pathCreateDirectory a => [a]
  | pathRename old new => [old, new]
  | pathUnlinkFile a => [a]

def PathArg.full (preopens : List PathBuf) (mem : GuestMemory) (a : PathArg) : Option PathBuf :=
  (a.text mem >>= fullPath preopens a.fd).toOption

/-- Every path lies in the guest's memory, as far as it is read: a path that is no text is the last one. -/
def Readable (mem : GuestMemory) : List PathArg → Prop
  | [] => True
  | a :: as => ∃ b, a.bytes mem = some b ∧ ((fromUtf8 b).isSome → Readable mem as)

/-- Where the guest's path is resolved below the first preopened directory, its dots stay below the start.  Any other
path starts with no preopened directory, or goes on from one without leaving it. -/
def Stays (preopens : List PathBuf) (fd : Int32) (path : PathBuf) : Prop :=
  if fd = 3 ∧ isAbsolute path = false then StaysBelow (components path)
  else (∀ p ∈ preopens, startsWith path p = false) ∨
    ∃ p ∈ preopens, ∃ ds, components path = components p ++ ds ∧ StaysBelow ds

/-! ## One path -/

variable {cwd : List Bytes} {preopens : List PathBuf} {mem : GuestMemory}

theorem allowed_iff {path : PathBuf} :
    allowed preopens path = true ↔ ∃ p ∈ preopens, ∃ ds, components path = components p ++ ds := by
  rw [allowed, List.any_eq_true]
  constructor
  · rintro ⟨p, hp, h⟩
    exact ⟨p, hp, startsWith_iff.mp h⟩
  · rintro ⟨p, hp, h⟩
    exact ⟨p, hp, startsWith_iff.mpr h⟩

/-- **The check.**  A path that passes it is in a preopened directory exactly if its dots lead nowhere else. -/
theorem inside_iff_keepsIn {path : PathBuf} (h : allowed preopens path = true) :
    Inside cwd preopens path ↔ KeepsIn cwd preopens path := by
  constructor
  · rintro ⟨q, hq, hin⟩ p hp ds hds
    rw [hds, resolve_append] at hin
    exact ⟨q, hq, leadsInto_iff.mpr hin⟩
  · intro hkeep
    obtain ⟨p, hp, ds, hds⟩ := allowed_iff.mp h
    obtain ⟨q, hq, hin⟩ := hkeep p hp ds hds
    refine ⟨q, hq, ?_⟩
    rw [hds, resolve_append]
    exact leadsInto_iff.mp hin

theorem readable_cons {a : PathArg} {as : List PathArg} :
    Readable mem (a :: as) ↔ a.text mem ≠ .panic ∧ ∀ t, a.text mem = .ok t → Readable mem as := by
  show (∃ b, a.bytes mem = some b ∧ ((fromUtf8 b).isSome → Readable mem as)) ↔ _
  unfold PathArg.text
  cases a.bytes mem with
  | none =>
    constructor
    · rintro ⟨b, h, -⟩
      cases h
    · exact fun h => absurd rfl h.1
  | some b =>
    simp only [Option.some.injEq, exists_eq_left']
    cases fromUtf8 b with
    | none => exact ⟨fun _ => ⟨by simp, by simp⟩, fun _ h => absurd h (by simp)⟩
    | some s => exact ⟨fun h => ⟨by simp, fun _ _ => h rfl⟩, fun h _ => h.2 _ rfl⟩

theorem fullPath_ne_panic (fd : Int32) (path : PathBuf) : fullPath preopens fd path ≠ .panic := by
  unfold fullPath
  split_ifs
  · split
    · exact nofun
    · exact nofun
  · exact nofun

theorem hostPath_eq_panic {a : PathArg} : hostPath preopens mem a = .panic ↔ ¬Readable mem [a] := by
  rw [readable_cons, hostPath]
  cases a.text mem with
  | panic => exact ⟨fun _ h => h.1 rfl, fun _ => rfl⟩
  | err e => exact ⟨nofun, fun h => absurd ⟨nofun, nofun⟩ h⟩
  | ok t =>
    rw [Outcome.ok_bind]
    refine ⟨fun h => absurd h ?_, fun h => absurd ⟨nofun, fun _ _ => trivial⟩ h⟩
    refine Outcome.bind_ne_panic (fullPath_ne_panic _ _) fun p _ => ?_
    split_ifs
    · exact nofun
    · exact nofun

theorem hostPaths_eq_panic {old new : PathArg} :
    hostPaths preopens mem old new = .panic ↔ ¬Readable mem [old, new] := by
  rw [readable_cons, hostPaths]
  cases old.text mem with
  | panic => exact ⟨fun _ h => h.1 rfl, fun _ => rfl⟩
  | err e => exact ⟨nofun, fun h => absurd ⟨nofun, nofun⟩ h⟩
  | ok t =>
    rw [Outcome.ok_bind, readable_cons]
    cases new.text mem with
    | panic => exact ⟨fun _ h => (h.2 t rfl).1 rfl, fun _ => rfl⟩
    | err e => exact ⟨nofun, fun h => absurd ⟨nofun, fun _ _ => ⟨nofun, nofun⟩⟩ h⟩
    | ok u =>
      rw [Outcome.ok_bind]
      refine ⟨fun h => absurd h ?_, fun h => absurd ⟨nofun, fun _ _ => ⟨nofun, fun _ _ => trivial⟩⟩ h⟩
      refine Outcome.bind_ne_panic (fullPath_ne_panic _ _) fun p _ => ?_
      refine Outcome.bind_ne_panic (fullPath_ne_panic _ _) fun q _ => ?_
      split_ifs
      · exact nofun
      · exact nofun

/-! ## Calls -/

variable {c : PathCall}

variable {fs : WasiFsState} {host : FsOp → Except ErrorKind Unit}

end VelocityMcp.Wasm
