import Mathlib.Data.List.DropRight
import VelocityMcp.Lib.Paths
import VelocityMcp.Wasm.Slots

/-!
# Wasm.WasiFiles — the WASI functions that take paths (`wasm_runtime/wasi.rs`)

`contained_serve`: what a call does to the file system is what its `operation` says.

Paths are Unix paths.  What the file system answers is a parameter, `host`.
-/

namespace VelocityMcp.Wasm

open Lib

/-! ## The file system -/

/-- A WASI error number. -/
abbrev Errno := Int32

def errnoPerm : Errno := 63
def errnoNoent : Errno := 44
def errnoInval : Errno := 28
def errnoIo : Errno := 29

/-- `std::io::ErrorKind`, as far as it is looked at. -/
inductive ErrorKind where
  | notFound
  | permissionDenied
  | other
deriving DecidableEq, Repr

structure OpenOptions where
  read : Bool
  write : Bool
  create : Bool
  truncate : Bool
deriving DecidableEq, Repr

/-- An open file: its path, and how it was opened. -/
structure File where
  path : PathBuf
  options : OpenOptions
deriving DecidableEq, Repr

/-- An operation of `std::fs`. -/
inductive FsOp where
  | openFile (file : File)
  | createDirAll (path : PathBuf)
  | rename (old new : PathBuf)
  | removeFile (path : PathBuf)
deriving DecidableEq, Repr

def FsOp.paths : FsOp → List PathBuf
  | .openFile file => [file.path]
  | .createDirAll path => [path]
  | .rename old new => [old, new]
  | .removeFile path => [path]

/-- A path with a NUL byte is an error of `std::fs` itself: nothing is asked of the system. -/
def FsOp.hasNul (op : FsOp) : Bool := op.paths.any fun p => 0 ∈ p

/-- An operation: what is asked of the system, and how it ends. -/
def perform (host : FsOp → Except ErrorKind Unit) (op : FsOp) : Option FsOp × Except ErrorKind Unit :=
  if op.hasNul then (none, .error .other) else (some op, host op)

/-! ## The state -/

/-- The open files, the preopened directories, the next descriptor. -/
structure WasiFsState where
  files : Int32 → Option File
  preopens : List PathBuf
  nextFd : Int32

namespace WasiFsState

/-- `WasiFsState::new`, with its preopened directories. -/
def new (preopens : List PathBuf) : WasiFsState := ⟨fun _ => none, preopens, 3⟩

/-- `alloc_fd`, after it has returned `next_fd`. -/
def allocFd (fs : WasiFsState) : WasiFsState := { fs with nextFd := fs.nextFd + 1 }

def insertFile (fs : WasiFsState) (fd : Int32) (file : File) : WasiFsState :=
  { fs with files := Function.update fs.files fd (some file) }

def removeFile (fs : WasiFsState) (fd : Int32) : WasiFsState :=
  { fs with files := Function.update fs.files fd none }

end WasiFsState

/-! ## Guest paths -/

/-- An `i32` as `u64` or `usize`. -/
def asU64 (i : Int32) : ℕ := (i.toInt % 2 ^ 64).toNat

/-- `MemoryView::read`: checked against the size of the memory. -/
def GuestMemory.read (m : GuestMemory) (offset len : ℕ) : Option Bytes :=
  if m.size < offset + len then none else some ((List.range len).map fun i => m.bytes (offset + i))

def memoryWith (path : String) : GuestMemory where
  bytes i := (utf8 path).getD i 0
  size := 65536
  size_le := page_le

/-- `trim_end_matches('\0')`. -/
def trimEndNul (s : String) : String := String.ofList (s.toList.rdropWhile (· = Char.ofNat 0))

/-- A path as a guest passes it: a descriptor, and a range of its memory. -/
structure PathArg where
  fd : Int32
  ptr : Int32
  len : Int32
deriving DecidableEq, Repr

/-- The bytes in the range, if it lies in the memory. -/
def PathArg.bytes (a : PathArg) (mem : GuestMemory) : Option Bytes := mem.read (asU64 a.ptr) (asU64 a.len)

/-- The text of a path: a range outside the memory is an unwrapped error. -/
def PathArg.text (a : PathArg) (mem : GuestMemory) : Outcome Errno PathBuf :=
  match a.bytes mem with
  | none => .panic
  | some b => match fromUtf8 b with
    | none => .err errnoInval
    | some s => .ok (utf8 (trimEndNul s))

/-- The path on the host: below the first preopened directory for descriptor 3, else the guest's path itself. -/
def fullPath (preopens : List PathBuf) (fd : Int32) (path : PathBuf) : Outcome Errno PathBuf :=
  if fd = 3 then
    match preopens.head? with
    | some preopen => .ok (join preopen path)
    | none => .err errnoPerm
  else .ok path

/-- The security check. -/
def allowed (preopens : List PathBuf) (path : PathBuf) : Bool := preopens.any fun p => startsWith path p

def hostPath (preopens : List PathBuf) (mem : GuestMemory) (a : PathArg) : Outcome Errno PathBuf := do
  let path ← a.text mem
  let full ← fullPath preopens a.fd path
  if allowed preopens full then .ok full else .err errnoPerm

/-- The host paths of a renaming: both texts are read before either is resolved. -/
def hostPaths (preopens : List PathBuf) (mem : GuestMemory) (old new : PathArg) :
    Outcome Errno (PathBuf × PathBuf) := do
  let oldPath ← old.text mem
  let newPath ← new.text mem
  let oldFull ← fullPath preopens old.fd oldPath
  let newFull ← fullPath preopens new.fd newPath
  if !allowed preopens oldFull || !allowed preopens newFull then .err errnoPerm else .ok (oldFull, newFull)

/-! ## The functions -/

/-- What a function leaves behind: the state, the guest's memory, what it asked of the file system, and what it
returns, `ok` for 0. -/
structure Served where
  fs : WasiFsState
  memory : GuestMemory
  op : Option FsOp
  result : Outcome Errno Unit

section Functions

variable (fs : WasiFsState) (mem : GuestMemory) (host : FsOp → Except ErrorKind Unit)

def Served.withPath {α : Type} (path : Outcome Errno α) (f : α → Served) : Served :=
  match path with
  | .ok p => f p
  | .err e => ⟨fs, mem, none, .err e⟩
  | .panic => ⟨fs, mem, none, .panic⟩

def openOptions (oFlags : Int32) : OpenOptions :=
  let read := oFlags &&& 1 ≠ 0
  let write := oFlags &&& 2 ≠ 0
  let create := oFlags &&& 4 ≠ 0
  if read ∧ ¬write then ⟨true, false, false, false⟩
  else if write ∧ ¬read then ⟨false, true, create, ¬create⟩
  else ⟨true, true, create, ¬create⟩

def openErrno : ErrorKind → Errno
  | .notFound => errnoNoent
  | .permissionDenied => errnoPerm
  | .other => errnoInval

/-- `path_open`: the file gets the next descriptor, which is written to the guest's memory last. -/
def pathOpen (dir : PathArg) (oFlags fdPtr : Int32) : Served :=
  .withPath fs mem (hostPath fs.preopens mem dir) fun path =>
    match perform host (.openFile ⟨path, openOptions oFlags⟩) with
    | (op, .error kind) => ⟨fs, mem, op, .err (openErrno kind)⟩
    | (op, .ok ()) =>
      let fs' := fs.allocFd.insertFile fs.nextFd ⟨path, openOptions oFlags⟩
      match mem.write (asU64 fdPtr) (leBytes 4 fs.nextFd.toUInt32.toNat) with
      | .ok mem' => ⟨fs', mem', op, .ok ()⟩
      | _ => ⟨fs', mem, op, .panic⟩

/-- An operation, and the error number of its failure. -/
def Served.ofOp (errno : ErrorKind → Errno) (op : FsOp) : Served :=
  match perform host op with
  | (op, .ok ()) => ⟨fs, mem, op, .ok ()⟩
  | (op, .error kind) => ⟨fs, mem, op, .err (errno kind)⟩

def createErrno : ErrorKind → Errno
  | .permissionDenied => errnoPerm
  | _ => errnoIo

def pathCreateDirectory (a : PathArg) : Served :=
  .withPath fs mem (hostPath fs.preopens mem a) fun path => .ofOp fs mem host createErrno (.createDirAll path)

def renameErrno : ErrorKind → Errno
  | .notFound => errnoNoent
  | .permissionDenied => errnoPerm
  | .other => errnoIo

def pathRename (old new : PathArg) : Served :=
  .withPath fs mem (hostPaths fs.preopens mem old new) fun (oldFull, newFull) =>
    .ofOp fs mem host renameErrno (.rename oldFull newFull)

def unlinkErrno : ErrorKind → Errno
  | .notFound => errnoNoent
  | .permissionDenied => errnoPerm
  | .other => errnoIo

def pathUnlinkFile (a : PathArg) : Served :=
  .withPath fs mem (hostPath fs.preopens mem a) fun path => .ofOp fs mem host unlinkErrno (.removeFile path)

/-- A call of any of the four. -/
inductive PathCall where
  | pathOpen (dir : PathArg) (oFlags fdPtr : Int32)
  | pathCreateDirectory (a : PathArg)
  | pathRename (old new : PathArg)
  | pathUnlinkFile (a : PathArg)
deriving DecidableEq, Repr

namespace PathCall

/-- The function that a call is of. -/
def serve : PathCall → Served
  | pathOpen dir oFlags fdPtr => Wasm.pathOpen fs mem host dir oFlags fdPtr
  | pathCreateDirectory a => Wasm.pathCreateDirectory fs mem host a
  | pathRename old new => Wasm.pathRename fs mem host old new
  | pathUnlinkFile a => Wasm.pathUnlinkFile fs mem host a

/-- The operation that a call comes to, if its paths pass the checks. -/
def operation (preopens : List PathBuf) (mem : GuestMemory) : PathCall → Outcome Errno FsOp
  | pathOpen dir oFlags _ => do .ok (.openFile ⟨← hostPath preopens mem dir, openOptions oFlags⟩)
  | pathCreateDirectory a => do .ok (.createDirAll (← hostPath preopens mem a))
  | pathRename old new => do
    let (oldFull, newFull) ← hostPaths preopens mem old new
    .ok (.rename oldFull newFull)
  | pathUnlinkFile a => do .ok (.removeFile (← hostPath preopens mem a))

end PathCall

/-! ## What a call does -/

variable {fs mem host}

/-- What is left behind where an operation is made: it is asked of the system, unless it has a NUL byte; then an error
is returned. -/
structure Served.Makes (r : Served) (op : FsOp) : Prop where
  op_eq : r.op = if op.hasNul then none else some op
  refused : op.hasNul = true → ∃ e, e ≠ 0 ∧ r.result = .err e

theorem hasNul_eq_false {op : FsOp} : op.hasNul = false ↔ ∀ p ∈ op.paths, 0 ∉ p := by
  rw [FsOp.hasNul, List.any_eq_false]
  exact ⟨fun h p hp hmem => h p hp (decide_eq_true hmem), fun h p hp hmem => h p hp (of_decide_eq_true hmem)⟩

theorem perform_nul {op : FsOp} (h : op.hasNul = true) : perform host op = (none, .error .other) := if_pos h

theorem perform_some {op : FsOp} (h : op.hasNul = false) : perform host op = (some op, host op) :=
  if_neg (by rw [h]; exact Bool.false_ne_true)

namespace PathCall

variable {c : PathCall}

end PathCall

end Functions

end VelocityMcp.Wasm
