import VelocityMcp.Wasm.Containment
import VelocityMcp.Wasm.Descriptors
import VelocityMcp.Wasm.Iovecs

/-!
# Wasm.Imports — the functions that a guest can call (`build_wasi_imports` of `wasm_runtime/wasi.rs`)

The functions of paths and descriptors are those of `Wasm.WasiFiles` and `Wasm.Descriptors`.  What the host answers is a
parameter: the file system, files and sockets, the clock, the random numbers, and whether standard error can be
written to.  A panic ends the process (`panic = "abort"`), so that no lock is ever poisoned.
-/

namespace VelocityMcp.Wasm

open Lib

/-! ## The state and the host -/

def errnoAgain : Errno := 6
def errnoNotsup : Errno := 58

/-- The memory is there when the guest has been instantiated. -/
structure WasiEnv where
  memory : Option GuestMemory
  stdinBuffer : Bytes
  fsState : WasiFsState
  socketState : WasiSocketState

inductive SeekFrom where
  | start (offset : ℕ)
  | current (offset : Int64)
  | fromEnd (offset : Int64)

/-- Why a read or a write fails, as far as it is looked at. -/
inductive IoError where
  | wouldBlock
  | other
deriving DecidableEq, Repr

/-- What the host answers during one call; reads and writes are told by the number of the buffer. -/
structure WasiHost where
  /-- nanoseconds since 1970, unless the clock is before it -/
  clock : Option ℕ
  random : (n : ℕ) → { b : Bytes // b.length = n }
  /-- a file or a stream takes a part of the bytes -/
  write : ℕ → (data : Bytes) → Except IoError { n : ℕ // n ≤ data.length }
  /-- it gives at most as many bytes as asked for -/
  read : ℕ → (len : ℕ) → Except IoError { b : Bytes // b.length ≤ len }
  /-- `eprint!` panics if standard error cannot be written to -/
  prints : ℕ → Bytes → Bool
  seek : SeekFrom → Except IoError ℕ
  streamPosition : Except IoError ℕ
  shutdown : Int32 → Except IoError Unit
  fileSystem : FsOp → Except ErrorKind Unit
  network : NetOp → Except NetError Unit

/-- A call returns a number, or panics. -/
abbrev Answer := Option (WasiEnv × Int32)

/-! ## The functions -/

/-- `vec![0u8; n]`: a length above `isize::MAX` is a capacity overflow. -/
def zeros (n : ℕ) : Option Bytes := if n < 2 ^ 63 then some (List.replicate n 0) else none

namespace WasiEnv

variable (env : WasiEnv) (host : WasiHost) (networking : Bool)

def withMemory (mem : GuestMemory) : WasiEnv := { env with memory := some mem }

/-- The values are written to the guest's memory, and 0 is returned. -/
def store (writes : List (Int32 × Bytes)) : Answer := do
  let mem ← env.memory
  let mem ← mem.putAll (writes.map fun w => (asU64 w.1, w.2))
  some (env.withMemory mem, 0)

def clockTimeGet (resultPtr : Int32) : Answer := do
  let ns ← host.clock
  env.store [(resultPtr, leBytes 8 ns)]

def clockResGet (resolutionPtr : Int32) : Answer := env.store [(resolutionPtr, leBytes 8 1000)]

def argsSizesGet (argcPtr argvBufSizePtr : Int32) : Answer :=
  env.store [(argcPtr, leBytes 4 0), (argvBufSizePtr, leBytes 4 0)]

def environSizesGet (countPtr bufSizePtr : Int32) : Answer :=
  env.store [(countPtr, leBytes 4 0), (bufSizePtr, leBytes 4 0)]

def randomGet (bufPtr bufLen : Int32) : Answer := do
  let buf ← zeros (asU64 bufLen)
  env.store [(bufPtr, (host.random buf.length).1)]

/-- The 24 bytes of a `fdstat`. -/
def stat (fileType : UInt8) : Bytes := fileType :: List.replicate 23 0

def fdFdstatGet (fd statPtr : Int32) : Answer :=
  if fd = 1 ∨ fd = 2 then env.store [(statPtr, stat 2)]
  else if networking ∧ socketFdBase ≤ fd then do
    let _ ← env.memory
    if env.socketState.sockets fd ∨ env.socketState.listeners fd then env.store [(statPtr, stat 6)]
    else some (env, errnoBadf)
  else some (env, errnoBadf)

def seekFrom (offset : Int64) (whence : Int32) : Option SeekFrom :=
  if whence = 0 then some (.start (offset.toInt % 2 ^ 64).toNat)
  else if whence = 1 then some (.current offset)
  else if whence = 2 then some (.fromEnd offset)
  else none

def fdSeek (fd : Int32) (offset : Int64) (whence resultPtr : Int32) : Answer :=
  if fd < 3 then some (env, errnoBadf)
  else match env.fsState.files fd with
    | none => some (env, errnoBadf)
    | some _ => match seekFrom offset whence with
      | none => some (env, errnoInval)
      | some target => match host.seek target with
        | .ok pos => env.store [(resultPtr, leBytes 8 pos)]
        | .error _ => some (env, errnoIo)

def fdTell (fd offsetPtr : Int32) : Answer :=
  if 3 ≤ fd then match env.fsState.files fd with
    | none => some (env, errnoBadf)
    | some _ => match host.streamPosition with
      | .ok pos => env.store [(offsetPtr, leBytes 8 pos)]
      | .error _ => some (env, errnoInval)
  else some (env, errnoBadf)

def fdReaddir (fd : Int32) : Answer :=
  if fd < 3 then some (env, errnoBadf)
  else match env.fsState.files fd with
    | none => some (env, errnoBadf)
    | some _ => some (env, errnoNotsup)

/-! ### Loops -/

/-- After a loop that has read from the guest, the count is written. -/
def afterGather (countPtr : Int32) : Turn Int32 ℕ → Answer
  | .ret e _ => some (env, e)
  | .next total => env.store [(countPtr, leBytes 4 total)]
  | .leave total => env.store [(countPtr, leBytes 4 total)]

/-- A loop over buffers of the guest. -/
def gather (iovsPtr iovsLen : Int32) (sink : ℕ → Bytes → Option (Turn Int32 ℕ)) (countPtr : Int32) : Answer := do
  let mem ← env.memory
  let t ← forRange (gatherTurn mem (asU64 iovsPtr) sink) (asU64 iovsLen) 0 0
  env.afterGather countPtr t

/-- A file, or a socket of `fd_write`. -/
def streamSink (i : ℕ) (data : Bytes) : Option (Turn Int32 ℕ) :=
  match host.write i data with
  | .ok n => some (.next n)
  | .error _ => some (.leave 0)

/-- `fd_write` passes over a socket that is not there. -/
def socketSink (fd : Int32) (i : ℕ) (data : Bytes) : Option (Turn Int32 ℕ) :=
  if env.socketState.sockets fd then streamSink host i data else some (.next 0)

/-- Standard output takes everything, and is not written to. -/
def outputSink (fd : Int32) (i : ℕ) (data : Bytes) : Option (Turn Int32 ℕ) :=
  if fd = 2 ∧ host.prints i data = false then none else some (.next data.length)

/-- `sock_send`. -/
def sendSink (i : ℕ) (data : Bytes) : Option (Turn Int32 ℕ) :=
  match host.write i data with
  | .ok n => some (.next n)
  | .error .wouldBlock => some (.leave 0)
  | .error .other => some (.ret errnoConnaborted 0)

/-- `fd_write`: to a socket, a file, or the standard output. -/
def fdWrite (fd iovsPtr iovsLen nwrittenPtr : Int32) : Answer := do
  let _ ← env.memory
  if networking ∧ socketFdBase ≤ fd then env.gather iovsPtr iovsLen (env.socketSink host fd) nwrittenPtr
  else if 3 ≤ fd then
    match env.fsState.files fd with
    | none => some (env, errnoBadf)
    | some _ => env.gather iovsPtr iovsLen (streamSink host) nwrittenPtr
  else env.gather iovsPtr iovsLen (outputSink host fd) nwrittenPtr

/-- What a loop that reads from the host leaves. -/
def received (s : Receiving) : WasiEnv := { env with memory := some s.memory, stdinBuffer := s.stdin }

/-- After it, the count is written to its place, and zero to the places in `zeroPtrs`. -/
def afterScatter (countPtr : Int32) (zeroPtrs : List Int32) : Turn Int32 Receiving → Answer
  | .ret e s => some (env.received s, e)
  | .next s => (env.received s).store ((countPtr, leBytes 4 s.total) :: zeroPtrs.map (·, leBytes 4 0))
  | .leave s => (env.received s).store ((countPtr, leBytes 4 s.total) :: zeroPtrs.map (·, leBytes 4 0))

/-- The other way. -/
def scatter (iovsPtr iovsLen : Int32) (source : ℕ → ℕ → Bytes → Got) (countPtr : Int32) (zeroPtrs : List Int32) :
    Answer := do
  let mem ← env.memory
  let t ← forRange (scatterTurn (asU64 iovsPtr) source) (asU64 iovsLen) 0 ⟨mem, env.stdinBuffer, 0⟩
  env.afterScatter countPtr zeroPtrs t

/-- The standard input, from which every buffer takes as much as it holds. -/
def stdinSource (_i len : ℕ) (stdin : Bytes) : Got :=
  if stdin = [] then .nothing else .bytes (stdin.take len) (stdin.drop len) true

/-- A file: a read that gives less than the buffer holds ends the loop. -/
def fileSource (i len : ℕ) (stdin : Bytes) : Got :=
  match host.read i len with
  | .ok data => .bytes data.1 stdin (decide (len ≤ data.1.length))
  | .error _ => .leave

/-- `sock_recv`. -/
def recvSource (i len : ℕ) (stdin : Bytes) : Got :=
  match host.read i len with
  | .ok data => if data.1 = [] then .nothing else .bytes data.1 stdin true
  | .error .wouldBlock => .leave
  | .error .other => .ret errnoConnaborted

/-- `fd_read`: from the standard input, or from a file. -/
def fdRead (fd iovsPtr iovsLen nreadPtr : Int32) : Answer := do
  let _ ← env.memory
  if fd = 0 then
    if env.stdinBuffer = [] then some (env, errnoAgain)
    else env.scatter iovsPtr iovsLen stdinSource nreadPtr []
  else if 3 ≤ fd then
    match env.fsState.files fd with
    | none => some (env, errnoBadf)
    | some _ => env.scatter iovsPtr iovsLen (fileSource host) nreadPtr []
  else some (env, errnoBadf)

/-- `sock_recv`; without networking there are no sockets. -/
def sockRecv (fd riDataPtr riDataLen roDatalenPtr roFlagsPtr : Int32) : Answer :=
  if networking then do
    let _ ← env.memory
    if env.socketState.sockets fd then env.scatter riDataPtr riDataLen (recvSource host) roDatalenPtr [roFlagsPtr]
    else some (env, errnoBadf)
  else some (env, errnoInval)

/-- `sock_send`. -/
def sockSend (fd siDataPtr siDataLen soDatalenPtr : Int32) : Answer :=
  if networking then do
    let _ ← env.memory
    if env.socketState.sockets fd then env.gather siDataPtr siDataLen (sendSink host) soDatalenPtr
    else some (env, errnoBadf)
  else some (env, errnoInval)

/-- Whether `poll_oneoff` finds a descriptor ready. -/
def isReady (fd : Int32) : Bool :=
  if networking then decide (fd < socketFdBase) || env.socketState.sockets fd || env.socketState.listeners fd
  else if 3 ≤ fd then (env.fsState.files fd).isSome
  else decide (fd = 0 ∨ fd = 1 ∨ fd = 2)

def afterPoll (neventsPtr : Int32) (s : Polling) : Answer :=
  (env.withMemory s.memory).store [(neventsPtr, leBytes 4 s.eventCount)]

/-- `poll_oneoff`: a subscription is read, waited for and answered before the next is read. -/
def pollOneoff (inPtr outPtr nsubscriptions neventsPtr : Int32) : Answer := do
  let mem ← env.memory
  let t ← forRange (pollTurn (asU64 inPtr) (asU64 outPtr) (env.isReady networking)) (asU64 nsubscriptions) 0 ⟨mem, 0⟩
  env.afterPoll neventsPtr t.state

/-! ### Descriptors and paths -/

/-- The tables, as `Wasm.Descriptors` has them. -/
def descriptors : Descriptors := ⟨env.fsState, env.socketState, []⟩

/-- The tables that a call leaves, and what it returns, if it does not panic. -/
def withDescriptors (r : Descriptors × Option Int32) : Answer := do
  let code ← r.2
  some ({ env with fsState := r.1.fs, socketState := r.1.net }, code)

def fdClose (fd : Int32) : Answer := env.withDescriptors (env.descriptors.fdClose networking fd)

/-- `tcp_connect` and `tcp_listen`. -/
def tcp (call : WasiCall) : Answer := do
  let mem ← env.memory
  env.withDescriptors (env.descriptors.serve ⟨call, mem, host.fileSystem, host.network⟩ true)

def withSockets (net : WasiSocketState) : WasiEnv := { env with socketState := net }

def sockAccept (fd resultFdPtr : Int32) : Answer :=
  if networking then do
    let _ ← env.memory
    match env.socketState.acceptTcp host.network fd with
    | (net, .ok newFd) => (env.withSockets net).store [(resultFdPtr, leBytes 4 newFd.toUInt32.toNat)]
    | (net, .error e) => some (env.withSockets net, e)
  else some (env, errnoInval)

def sockShutdown (fd how : Int32) : Answer :=
  if networking then
    if env.socketState.sockets fd then
      if how = 0 ∨ how = 1 ∨ how = 2 then
        match host.shutdown how with
        | .ok () => some (env, 0)
        | .error _ => some (env, errnoConnaborted)
      else some (env, errnoBadf)
    else some (env, errnoBadf)
  else some (env, errnoInval)

def path (c : PathCall) : Answer := do
  let mem ← env.memory
  let r := c.serve env.fsState mem host.fileSystem
  match r.result with
  | .ok () => some ({ env with memory := some r.memory, fsState := r.fs }, 0)
  | .err e => some ({ env with memory := some r.memory, fsState := r.fs }, e)
  | .panic => none

end WasiEnv

/-! ## The imports -/

/-- The functions that look at none of their arguments. -/
inductive Stub where
  | procExit
  | argsGet
  | environGet
  | fdAdvise
  | fdAllocate
  | fdDatasync
  | fdFdstatSetFlags
  | fdFdstatSetRights
  | fdFilestatGet
  | fdFilestatSetSize
  | fdFilestatSetTimes
  | fdPread
  | fdPrestatDirName
  | fdPrestatGet
  | fdPwrite
  | fdRenumber
  | fdSync
  | pathFilestatGet
  | pathFilestatSetTimes
  | pathLink
  | pathReadlink
  | pathRemoveDirectory
  | pathSymlink
  | schedYield
deriving DecidableEq, Repr

/-- What they return; `proc_exit` returns nothing. -/
def Stub.errno : Stub → Errno
  | procExit | argsGet | environGet | fdAdvise | schedYield => 0
  | pathFilestatGet | pathFilestatSetTimes | pathLink | pathReadlink | pathRemoveDirectory | pathSymlink => errnoInval
  | _ => errnoBadf

/-- A function of the host that the guest calls, with its arguments. -/
inductive Import (networking : Bool) where
  | stub (s : Stub)
  | clockTimeGet (resultPtr : Int32)
  | clockResGet (resolutionPtr : Int32)
  | argsSizesGet (argcPtr argvBufSizePtr : Int32)
  | environSizesGet (countPtr bufSizePtr : Int32)
  | randomGet (bufPtr bufLen : Int32)
  | fdWrite (fd iovsPtr iovsLen nwrittenPtr : Int32)
  | fdRead (fd iovsPtr iovsLen nreadPtr : Int32)
  | fdClose (fd : Int32)
  | fdFdstatGet (fd statPtr : Int32)
  | fdSeek (fd : Int32) (offset : Int64) (whence resultPtr : Int32)
  | fdTell (fd offsetPtr : Int32)
  | fdReaddir (fd : Int32)
  | path (c : PathCall)
  | pollOneoff (inPtr outPtr nsubscriptions neventsPtr : Int32)
  | sockAccept (fd resultFdPtr : Int32)
  | sockRecv (fd riDataPtr riDataLen roDatalenPtr roFlagsPtr : Int32)
  | sockSend (fd siDataPtr siDataLen soDatalenPtr : Int32)
  | sockShutdown (fd how : Int32)
  | tcpConnect (enabled : networking = true) (hostPtr hostLen port : Int32)
  | tcpListen (enabled : networking = true) (hostPtr hostLen port : Int32)

/-- One call, with and without `wasm-networking`; it is `none` where the code panics. -/
def Import.serve {networking : Bool} (env : WasiEnv) (host : WasiHost) : Import networking → Answer
  | stub s => some (env, s.errno)
  | clockTimeGet resultPtr => env.clockTimeGet host resultPtr
  | clockResGet resolutionPtr => env.clockResGet resolutionPtr
  | argsSizesGet argcPtr argvBufSizePtr => env.argsSizesGet argcPtr argvBufSizePtr
  | environSizesGet countPtr bufSizePtr => env.environSizesGet countPtr bufSizePtr
  | randomGet bufPtr bufLen => env.randomGet host bufPtr bufLen
  | fdWrite fd iovsPtr iovsLen nwrittenPtr => env.fdWrite host networking fd iovsPtr iovsLen nwrittenPtr
  | fdRead fd iovsPtr iovsLen nreadPtr => env.fdRead host fd iovsPtr iovsLen nreadPtr
  | fdClose fd => env.fdClose networking fd
  | fdFdstatGet fd statPtr => env.fdFdstatGet networking fd statPtr
  | fdSeek fd offset whence resultPtr => env.fdSeek host fd offset whence resultPtr
  | fdTell fd offsetPtr => env.fdTell host fd offsetPtr
  | fdReaddir fd => env.fdReaddir fd
  | path c => env.path host c
  | pollOneoff inPtr outPtr nsubscriptions neventsPtr =>
    env.pollOneoff networking inPtr outPtr nsubscriptions neventsPtr
  | sockAccept fd resultFdPtr => env.sockAccept host networking fd resultFdPtr
  | sockRecv fd riDataPtr riDataLen roDatalenPtr roFlagsPtr =>
    env.sockRecv host networking fd riDataPtr riDataLen roDatalenPtr roFlagsPtr
  | sockSend fd siDataPtr siDataLen soDatalenPtr =>
    env.sockSend host networking fd siDataPtr siDataLen soDatalenPtr
  | sockShutdown fd how => env.sockShutdown host networking fd how
  | tcpConnect _ hostPtr hostLen port => env.tcp host (.tcpConnect hostPtr hostLen port)
  | tcpListen _ hostPtr hostLen port => env.tcp host (.tcpListen hostPtr hostLen port)

/-! ## Which calls return -/

namespace WasiEnv

variable (env : WasiEnv)

/-- The memory is there, and the ranges lie in it; a number below zero stands for one from `2 ^ 63` on. -/
def Has (ranges : List (Int32 × ℕ)) : Prop :=
  ∃ mem, env.memory = some mem ∧ ∀ r ∈ ranges, mem.Within (asU64 r.1) r.2

/-- The buffers that a loop comes to are in order, and the count can be written, unless the function returns early. -/
def GathersInside (iovsPtr iovsLen : Int32) (sink : ℕ → Bytes → Option (Turn Int32 ℕ)) (countPtr : Int32) : Prop :=
  ∃ mem, env.memory = some mem ∧
    AllTurns (gathered mem (asU64 iovsPtr) sink) (GatherOk mem (asU64 iovsPtr) sink) (asU64 iovsLen) 0 0 ∧
    (ReturnsIn (gathered mem (asU64 iovsPtr) sink) (asU64 iovsLen) 0 0 ∨ env.Has [(countPtr, 4)])

/-- The buffers are listed as the loop finds them, after it has written to those before. -/
def ScattersInside (iovsPtr iovsLen : Int32) (source : ℕ → ℕ → Bytes → Got) (ptrs : List Int32) : Prop :=
  ∃ mem, env.memory = some mem ∧
    AllTurns (scattered (asU64 iovsPtr) source) (ScatterOk (asU64 iovsPtr) source) (asU64 iovsLen) 0
      ⟨mem, env.stdinBuffer, 0⟩ ∧
    (ReturnsIn (scattered (asU64 iovsPtr) source) (asU64 iovsLen) 0 ⟨mem, env.stdinBuffer, 0⟩ ∨
      env.Has (ptrs.map (·, 4)))

/-- All that `poll_oneoff` reads and writes lies in the memory. -/
def PollsInside (networking : Bool) (inPtr outPtr nsubscriptions neventsPtr : Int32) : Prop :=
  ∃ mem, env.memory = some mem ∧
    AllTurns (polled (asU64 inPtr) (asU64 outPtr) (env.isReady networking)) (PollOk (asU64 inPtr) (asU64 outPtr))
      (asU64 nsubscriptions) 0 ⟨mem, 0⟩ ∧
    env.Has [(neventsPtr, 4)]

/-- The paths that are read lie in the memory, and so does the place for the number of a file that is opened. -/
def PathInside (host : WasiHost) (c : PathCall) : Prop :=
  ∃ mem, env.memory = some mem ∧ Readable mem c.args ∧ ∀ dir oFlags fdPtr p, c = .pathOpen dir oFlags fdPtr →
    OpensFile env.fsState.preopens mem host.fileSystem dir oFlags p → mem.Within (asU64 fdPtr) 4

end WasiEnv

/-- Everything that a call touches lies in the memory, and its counts stay in their 32 bits. -/
def Import.Inside {networking : Bool} (env : WasiEnv) (host : WasiHost) : Import networking → Prop
  | stub _ => True
  | clockTimeGet resultPtr => host.clock ≠ none ∧ env.Has [(resultPtr, 8)]
  | clockResGet resolutionPtr => env.Has [(resolutionPtr, 8)]
  | argsSizesGet argcPtr argvBufSizePtr => env.Has [(argcPtr, 4), (argvBufSizePtr, 4)]
  | environSizesGet countPtr bufSizePtr => env.Has [(countPtr, 4), (bufSizePtr, 4)]
  | randomGet bufPtr bufLen => env.Has [(bufPtr, asU64 bufLen)]
  | fdWrite fd iovsPtr iovsLen nwrittenPtr =>
    if networking ∧ socketFdBase ≤ fd then env.GathersInside iovsPtr iovsLen (env.socketSink host fd) nwrittenPtr
    else if 3 ≤ fd then env.Has [] ∧
      (env.fsState.files fd ≠ none → env.GathersInside iovsPtr iovsLen (WasiEnv.streamSink host) nwrittenPtr)
    else env.GathersInside iovsPtr iovsLen (WasiEnv.outputSink host fd) nwrittenPtr
  | fdRead fd iovsPtr iovsLen nreadPtr => env.Has [] ∧
    (fd = 0 → env.stdinBuffer ≠ [] → env.ScattersInside iovsPtr iovsLen WasiEnv.stdinSource [nreadPtr]) ∧
    (3 ≤ fd → env.fsState.files fd ≠ none → env.ScattersInside iovsPtr iovsLen (WasiEnv.fileSource host) [nreadPtr])
  | fdClose _ => True
  | fdFdstatGet fd statPtr => (fd = 1 ∨ fd = 2 → env.Has [(statPtr, 24)]) ∧
    (networking → socketFdBase ≤ fd → env.Has [] ∧
      (env.socketState.sockets fd ∨ env.socketState.listeners fd → env.Has [(statPtr, 24)]))
  | fdSeek fd offset whence resultPtr => ∀ target pos, 3 ≤ fd → env.fsState.files fd ≠ none →
    WasiEnv.seekFrom offset whence = some target → host.seek target = .ok pos → env.Has [(resultPtr, 8)]
  | fdTell fd offsetPtr => ∀ pos, 3 ≤ fd → env.fsState.files fd ≠ none → host.streamPosition = .ok pos →
    env.Has [(offsetPtr, 8)]
  | fdReaddir _ => True
  | path c => env.PathInside host c
  | pollOneoff inPtr outPtr nsubscriptions neventsPtr =>
    env.PollsInside networking inPtr outPtr nsubscriptions neventsPtr
  | sockAccept fd resultFdPtr => networking → env.Has [] ∧
    (env.socketState.listeners fd → host.network (.accept fd) = .ok () → env.Has [(resultFdPtr, 4)])
  | sockRecv fd riDataPtr riDataLen roDatalenPtr roFlagsPtr => networking → env.Has [] ∧
    (env.socketState.sockets fd →
      env.ScattersInside riDataPtr riDataLen (WasiEnv.recvSource host) [roDatalenPtr, roFlagsPtr])
  | sockSend fd siDataPtr siDataLen soDatalenPtr => networking → env.Has [] ∧
    (env.socketState.sockets fd → env.GathersInside siDataPtr siDataLen (WasiEnv.sendSink host) soDatalenPtr)
  | sockShutdown _ _ => True
  | tcpConnect _ hostPtr hostLen _ => env.Has [(hostPtr, asU64 hostLen)]
  | tcpListen _ hostPtr hostLen _ => env.Has [(hostPtr, asU64 hostLen)]

section Paths

variable {fs : WasiFsState} {mem : GuestMemory} {host : FsOp → Except ErrorKind Unit}

theorem ofOp_ne_panic {errno : ErrorKind → Errno} {op : FsOp} : (Served.ofOp fs mem host errno op).result ≠ .panic := by
  unfold Served.ofOp
  split
  · exact nofun
  · exact nofun

theorem withPath_ne_panic_iff {α : Type} {path : Outcome Errno α} {f : α → Served} (hf : ∀ p, (f p).result ≠ .panic) :
    (Served.withPath fs mem path f).result ≠ .panic ↔ path ≠ .panic := by
  cases path with
  | ok p => exact ⟨fun _ => nofun, fun _ => hf p⟩
  | err e => exact ⟨fun _ => nofun, fun _ => nofun⟩
  | panic => exact ⟨fun h => absurd rfl h, fun h => absurd rfl h⟩

theorem pathOpen_ne_panic_iff {dir : PathArg} {oFlags fdPtr : Int32} :
    (pathOpen fs mem host dir oFlags fdPtr).result ≠ .panic ↔ Readable mem [dir] ∧
      ∀ p, OpensFile fs.preopens mem host dir oFlags p → mem.Within (asU64 fdPtr) 4 := by
  unfold pathOpen
  cases hpath : hostPath fs.preopens mem dir with
  | panic => exact ⟨fun h => absurd rfl h, fun h => absurd h.1 (hostPath_eq_panic.mp hpath)⟩
  | err e =>
    have hreadable : Readable mem [dir] := by
      by_contra h
      cases hpath.symm.trans (hostPath_eq_panic.mpr h)
    refine ⟨fun _ => ⟨hreadable, fun p hp => ?_⟩, fun _ h => by cases h⟩
    cases hpath.symm.trans hp.passes
  | ok path =>
    have hreadable : Readable mem [dir] := by
      by_contra h
      cases hpath.symm.trans (hostPath_eq_panic.mpr h)
    have hsame : ∀ {p}, OpensFile fs.preopens mem host dir oFlags p → p = path := fun hp =>
      Outcome.ok.inj (hp.passes.symm.trans hpath)
    rw [Served.withPath]
    cases hnul : (FsOp.openFile ⟨path, openOptions oFlags⟩).hasNul with
    | true =>
      rw [perform_nul hnul]
      refine ⟨fun _ => ⟨hreadable, fun p hp => ?_⟩, fun _ => by simp⟩
      obtain rfl := hsame hp
      have hclean : (FsOp.openFile ⟨p, openOptions oFlags⟩).hasNul = false :=
        hasNul_eq_false.mpr fun q hq => List.mem_singleton.mp hq ▸ hp.noNul
      cases hnul.symm.trans hclean
    | false =>
      rw [perform_some hnul]
      cases hhost : host (.openFile ⟨path, openOptions oFlags⟩) with
      | error kind =>
        refine ⟨fun _ => ⟨hreadable, fun p hp => ?_⟩, fun _ => by simp⟩
        obtain rfl := hsame hp
        cases hhost.symm.trans hp.opens
      | ok u =>
        have hopens : OpensFile fs.preopens mem host dir oFlags path :=
          ⟨hpath, hasNul_eq_false.mp hnul path List.mem_cons_self, hhost⟩
        dsimp only
        by_cases hin : mem.Within (asU64 fdPtr) 4
        · rw [GuestMemory.write_eq_ok.mpr ⟨by simpa [GuestMemory.Within] using hin, rfl⟩]
          exact ⟨fun _ => ⟨hreadable, fun _ _ => hin⟩, fun _ => by simp⟩
        · rw [GuestMemory.write, if_pos (by simpa [GuestMemory.Within] using hin)]
          exact ⟨fun h => absurd rfl h, fun h => absurd (h.2 path hopens) hin⟩

theorem servePath_ne_panic_iff {c : PathCall} : (c.serve fs mem host).result ≠ .panic ↔ Readable mem c.args ∧
    ∀ dir oFlags fdPtr p, c = .pathOpen dir oFlags fdPtr → OpensFile fs.preopens mem host dir oFlags p →
      mem.Within (asU64 fdPtr) 4 := by
  have hpath : ∀ {a : PathArg}, hostPath fs.preopens mem a ≠ .panic ↔ Readable mem [a] := by
    intro a
    rw [Ne, hostPath_eq_panic, not_not]
  cases c with
  | pathOpen dir oFlags fdPtr =>
    refine pathOpen_ne_panic_iff.trans (and_congr_right fun _ => ⟨?_, fun h p hp => h dir oFlags fdPtr p rfl hp⟩)
    rintro h dir' oFlags' fdPtr' p hc hp
    cases hc
    exact h p hp
  | pathCreateDirectory a =>
    exact ((withPath_ne_panic_iff fun _ => ofOp_ne_panic).trans hpath).trans ⟨fun h => ⟨h, nofun⟩, fun h => h.1⟩
  | pathRename old new =>
    have hpaths : hostPaths fs.preopens mem old new ≠ .panic ↔ Readable mem [old, new] := by
      rw [Ne, hostPaths_eq_panic, not_not]
    exact ((withPath_ne_panic_iff fun _ => ofOp_ne_panic).trans hpaths).trans ⟨fun h => ⟨h, nofun⟩, fun h => h.1⟩
  | pathUnlinkFile a =>
    exact ((withPath_ne_panic_iff fun _ => ofOp_ne_panic).trans hpath).trans ⟨fun h => ⟨h, nofun⟩, fun h => h.1⟩

end Paths

namespace WasiEnv

variable {env : WasiEnv} {host : WasiHost} {networking : Bool}

theorem bind_memory_isSome_iff {f : GuestMemory → Answer} {P : GuestMemory → Prop}
    (hf : ∀ mem, env.memory = some mem → ((f mem).isSome = true ↔ P mem)) :
    (env.memory >>= f).isSome = true ↔ ∃ mem, env.memory = some mem ∧ P mem := by
  cases hmem : env.memory with
  | none => exact ⟨nofun, fun ⟨mem, h, _⟩ => (nomatch h)⟩
  | some mem =>
    simp only [Option.some.injEq, exists_eq_left']
    exact hf mem hmem

theorem memory_bind_isSome_iff {x : Answer} :
    (env.memory >>= fun _ => x).isSome = true ↔ env.Has [] ∧ x.isSome = true := by
  refine (bind_memory_isSome_iff fun _ _ => Iff.rfl).trans ⟨?_, ?_⟩
  · rintro ⟨mem, hmem, hx⟩
    exact ⟨⟨mem, hmem, fun r hr => absurd hr List.not_mem_nil⟩, hx⟩
  · rintro ⟨⟨mem, hmem, -⟩, hx⟩
    exact ⟨mem, hmem, hx⟩

theorem store_returns_iff {writes : List (Int32 × Bytes)} :
    (env.store writes).isSome = true ↔ env.Has (writes.map fun w => (w.1, w.2.length)) := by
  refine bind_memory_isSome_iff fun mem _ => ?_
  have hsame : (∀ w ∈ writes.map fun w => (asU64 w.1, w.2), mem.Within w.1 w.2.length) ↔
      ∀ r ∈ writes.map fun w => (w.1, w.2.length), mem.Within (asU64 r.1) r.2 := by
    simp only [List.forall_mem_map]
  by_cases h : ∀ w ∈ writes.map fun w => (asU64 w.1, w.2), mem.Within w.1 w.2.length
  · rw [GuestMemory.putAll_of_within h]
    exact ⟨fun _ => hsame.mp h, fun _ => rfl⟩
  · rw [GuestMemory.putAll_of_not_within h]
    exact ⟨nofun, fun h' => absurd (hsame.mpr h') h⟩

theorem has_iff_of_size {env' : WasiEnv} {mem mem' : GuestMemory} (hmem : env.memory = some mem)
    (hmem' : env'.memory = some mem') (hsize : mem'.size = mem.size) {ranges : List (Int32 × ℕ)} :
    env'.Has ranges ↔ env.Has ranges := by
  unfold Has GuestMemory.Within
  rw [hmem, hmem']
  simp [hsize]

theorem gather_returns_iff {iovsPtr iovsLen countPtr : Int32} {sink : ℕ → Bytes → Option (Turn Int32 ℕ)} :
    (env.gather iovsPtr iovsLen sink countPtr).isSome = true ↔ env.GathersInside iovsPtr iovsLen sink countPtr := by
  have hstore : ∀ total, True → ((env.store [(countPtr, leBytes 4 total)]).isSome = true ↔ env.Has [(countPtr, 4)]) :=
    fun total _ => store_returns_iff
  refine bind_memory_isSome_iff fun mem _ => ?_
  refine (forRange_bind_isSome_iff (checks_gatherTurn mem (asU64 iovsPtr) sink)).trans (and_congr_right fun _ => ?_)
  exact after_isSome_iff (f := env.afterGather countPtr) (gathered mem (asU64 iovsPtr) sink) (fun _ _ _ => trivial)
    trivial (fun _ _ => rfl) hstore hstore

theorem scatter_returns_iff {iovsPtr iovsLen countPtr : Int32} {source : ℕ → ℕ → Bytes → Got} {zeroPtrs : List Int32} :
    (env.scatter iovsPtr iovsLen source countPtr zeroPtrs).isSome = true ↔
      env.ScattersInside iovsPtr iovsLen source (countPtr :: zeroPtrs) := by
  refine bind_memory_isSome_iff fun mem hmem => ?_
  have hstore : ∀ s : Receiving, s.memory.size = mem.size →
      (((env.received s).store ((countPtr, leBytes 4 s.total) :: zeroPtrs.map (·, leBytes 4 0))).isSome = true ↔
        env.Has ((countPtr :: zeroPtrs).map (·, 4))) := by
    intro s hsize
    rw [store_returns_iff, has_iff_of_size hmem rfl hsize]
    simp [Function.comp_def]
  refine (forRange_bind_isSome_iff (checks_scatterTurn (asU64 iovsPtr) source)).trans (and_congr_right fun _ => ?_)
  exact after_isSome_iff (f := env.afterScatter countPtr zeroPtrs) (I := fun s => s.memory.size = mem.size)
    (scattered (asU64 iovsPtr) source) (fun i s h => size_scattered.trans h) rfl (fun _ _ => rfl) hstore hstore

theorem pollOneoff_returns_iff {inPtr outPtr nsubscriptions neventsPtr : Int32} :
    (env.pollOneoff networking inPtr outPtr nsubscriptions neventsPtr).isSome = true ↔
      env.PollsInside networking inPtr outPtr nsubscriptions neventsPtr := by
  refine bind_memory_isSome_iff fun mem hmem => ?_
  have hafter : ∀ s : Polling, s.memory.size = mem.size →
      ((env.afterPoll neventsPtr s).isSome = true ↔ env.Has [(neventsPtr, 4)]) := by
    intro s hsize
    rw [afterPoll, store_returns_iff, has_iff_of_size hmem rfl hsize]
    rfl
  refine (forRange_bind_isSome_iff (checks_pollTurn (asU64 inPtr) (asU64 outPtr) (env.isReady networking))).trans
    (and_congr_right fun _ => hafter _ ?_)
  exact ending_state (I := fun s => s.memory.size = mem.size)
    (polled (asU64 inPtr) (asU64 outPtr) (env.isReady networking)) (fun i s h => size_polled.trans h) rfl

theorem path_returns_iff {c : PathCall} : (env.path host c).isSome = true ↔ env.PathInside host c := by
  refine bind_memory_isSome_iff fun mem _ => ?_
  rw [← servePath_ne_panic_iff]
  dsimp only
  cases (c.serve env.fsState mem host.fileSystem).result with
  | ok u => exact ⟨fun _ => nofun, fun _ => rfl⟩
  | err e => exact ⟨fun _ => nofun, fun _ => rfl⟩
  | panic => exact ⟨nofun, fun h => absurd rfl h⟩

theorem withHost_isSome_iff {d : Descriptors} {a : WasiAction} {hostPtr hostLen : Int32}
    {f : String → WasiSocketState × Except Errno Int32} :
    (d.withHost a hostPtr hostLen f).2.isSome = true ↔ a.memory.Within (asU64 hostPtr) (asU64 hostLen) := by
  unfold Descriptors.withHost
  by_cases hin : a.memory.Within (asU64 hostPtr) (asU64 hostLen)
  · rw [GuestMemory.read_of_within hin]
    refine ⟨fun _ => hin, fun _ => ?_⟩
    dsimp only
    split
    · rfl
    · split
      · rfl
      · rfl
  · rw [GuestMemory.read_of_not_within hin]
    exact ⟨fun h => absurd h (by simp), fun h => absurd h hin⟩

theorem tcp_returns_iff {hostPtr hostLen : Int32} {call : WasiCall}
    (hserve : ∀ mem, ∃ f, env.descriptors.serve ⟨call, mem, host.fileSystem, host.network⟩ true =
      env.descriptors.withHost ⟨call, mem, host.fileSystem, host.network⟩ hostPtr hostLen f) :
    (env.tcp host call).isSome = true ↔ env.Has [(hostPtr, asU64 hostLen)] := by
  refine bind_memory_isSome_iff fun mem _ => ?_
  obtain ⟨f, hf⟩ := hserve mem
  rw [List.forall_mem_singleton, hf, ← withHost_isSome_iff (d := env.descriptors) (f := f)
    (a := ⟨call, mem, host.fileSystem, host.network⟩), withDescriptors]
  cases (env.descriptors.withHost ⟨call, mem, host.fileSystem, host.network⟩ hostPtr hostLen f).2 with
  | none => exact Iff.rfl
  | some code => exact ⟨fun _ => rfl, fun _ => rfl⟩

theorem GathersInside.has {iovsPtr iovsLen countPtr : Int32} {sink : ℕ → Bytes → Option (Turn Int32 ℕ)}
    (h : env.GathersInside iovsPtr iovsLen sink countPtr) : env.Has [] := by
  obtain ⟨mem, hmem, -⟩ := h
  exact ⟨mem, hmem, fun r hr => absurd hr List.not_mem_nil⟩

theorem fdWrite_returns_iff {fd iovsPtr iovsLen nwrittenPtr : Int32} :
    (env.fdWrite host networking fd iovsPtr iovsLen nwrittenPtr).isSome = true ↔
      (.fdWrite fd iovsPtr iovsLen nwrittenPtr : Import networking).Inside env host := by
  rw [fdWrite, memory_bind_isSome_iff, Import.Inside]
  split_ifs with hsocket hfile
  · rw [gather_returns_iff, and_iff_right_of_imp GathersInside.has]
  · refine and_congr_right fun _ => ?_
    cases hopen : env.fsState.files fd with
    | none => exact ⟨fun _ h => absurd rfl h, fun _ => rfl⟩
    | some file => exact gather_returns_iff.trans ⟨fun h _ => h, fun h => h nofun⟩
  · rw [gather_returns_iff, and_iff_right_of_imp GathersInside.has]

theorem fdRead_returns_iff {fd iovsPtr iovsLen nreadPtr : Int32} :
    (env.fdRead host fd iovsPtr iovsLen nreadPtr).isSome = true ↔
      (.fdRead fd iovsPtr iovsLen nreadPtr : Import networking).Inside env host := by
  rw [fdRead, memory_bind_isSome_iff, Import.Inside]
  refine and_congr_right fun _ => ?_
  split_ifs with hstdin hempty hfile
  · exact ⟨fun _ => ⟨fun _ h => absurd hempty h, fun h => absurd (hstdin ▸ h) (by decide)⟩, fun _ => rfl⟩
  · refine scatter_returns_iff.trans ⟨fun h => ⟨fun _ _ => h, fun h => absurd (hstdin ▸ h) (by decide)⟩, fun h => ?_⟩
    exact h.1 hstdin hempty
  · cases hopen : env.fsState.files fd with
    | none => exact ⟨fun _ => ⟨fun h => absurd h hstdin, fun _ h => absurd rfl h⟩, fun _ => rfl⟩
    | some file =>
      exact scatter_returns_iff.trans ⟨fun h => ⟨fun h => absurd h hstdin, fun _ _ => h⟩, fun h => h.2 hfile nofun⟩
  · exact ⟨fun _ => ⟨fun h => absurd h hstdin, fun h => absurd h hfile⟩, fun _ => rfl⟩

theorem randomGet_returns_iff {bufPtr bufLen : Int32} :
    (env.randomGet host bufPtr bufLen).isSome = true ↔ env.Has [(bufPtr, asU64 bufLen)] := by
  unfold randomGet zeros
  by_cases hlen : asU64 bufLen < 2 ^ 63
  · rw [if_pos hlen, Option.bind_eq_bind, Option.bind_some, store_returns_iff]
    simp [(host.random _).2]
  · -- the length is negative, and no memory is that large
    rw [if_neg hlen]
    refine ⟨nofun, fun ⟨mem, _, h⟩ => ?_⟩
    have hin := h _ List.mem_cons_self
    have hsize := mem.size_le
    unfold GuestMemory.Within at hin
    omega

theorem clockTimeGet_returns_iff {resultPtr : Int32} :
    (env.clockTimeGet host resultPtr).isSome = true ↔ host.clock ≠ none ∧ env.Has [(resultPtr, 8)] := by
  unfold clockTimeGet
  cases host.clock with
  | none => exact ⟨nofun, fun h => absurd rfl h.1⟩
  | some ns => exact store_returns_iff.trans ⟨fun h => ⟨nofun, h⟩, fun h => h.2⟩

theorem fdFdstatGet_returns_iff {fd statPtr : Int32} : (env.fdFdstatGet networking fd statPtr).isSome = true ↔
    (.fdFdstatGet fd statPtr : Import networking).Inside env host := by
  rw [fdFdstatGet, Import.Inside]
  split_ifs with hstd hsocket hthere
  · have hsmall : ¬socketFdBase ≤ fd := by
      rcases hstd with rfl | rfl
      · decide
      · decide
    exact store_returns_iff.trans ⟨fun h => ⟨fun _ => h, fun _ h => absurd h hsmall⟩, fun h => h.1 hstd⟩
  · rw [memory_bind_isSome_iff, store_returns_iff]
    exact ⟨fun h => ⟨fun h => absurd h hstd, fun _ _ => ⟨h.1, fun _ => h.2⟩⟩, fun h =>
      ⟨(h.2 hsocket.1 hsocket.2).1, (h.2 hsocket.1 hsocket.2).2 hthere⟩⟩
  · rw [memory_bind_isSome_iff]
    exact ⟨fun h => ⟨fun h => absurd h hstd, fun _ _ => ⟨h.1, fun h => absurd h hthere⟩⟩, fun h =>
      ⟨(h.2 hsocket.1 hsocket.2).1, rfl⟩⟩
  · exact ⟨fun _ => ⟨fun h => absurd h hstd, fun h₁ h₂ => absurd ⟨h₁, h₂⟩ hsocket⟩, fun _ => rfl⟩

theorem fdSeek_returns_iff {fd : Int32} {offset : Int64} {whence resultPtr : Int32} :
    (env.fdSeek host fd offset whence resultPtr).isSome = true ↔
      (.fdSeek fd offset whence resultPtr : Import networking).Inside env host := by
  rw [fdSeek, Import.Inside]
  by_cases hlow : fd < 3
  · rw [if_pos hlow]
    exact ⟨fun _ _ _ h => absurd hlow (Int32.not_lt.mpr h), fun _ => rfl⟩
  · rw [if_neg hlow]
    have hfd : 3 ≤ fd := Int32.not_lt.mp hlow
    cases hopen : env.fsState.files fd with
    | none => exact ⟨fun _ _ _ _ h => absurd rfl h, fun _ => rfl⟩
    | some file =>
      cases htarget : seekFrom offset whence with
      | none => exact ⟨fun _ _ _ _ _ h => (nomatch h), fun _ => rfl⟩
      | some target =>
        dsimp only
        cases hpos : host.seek target with
        | error e =>
          refine ⟨fun _ target' pos _ _ ht hp => ?_, fun _ => rfl⟩
          obtain rfl := Option.some.inj ht
          exact nomatch hpos.symm.trans hp
        | ok pos =>
          refine store_returns_iff.trans ⟨fun h _ _ _ _ _ _ => h, fun h => h target pos hfd nofun rfl hpos⟩

theorem fdTell_returns_iff {fd offsetPtr : Int32} : (env.fdTell host fd offsetPtr).isSome = true ↔
    (.fdTell fd offsetPtr : Import networking).Inside env host := by
  rw [fdTell, Import.Inside]
  by_cases hfd : 3 ≤ fd
  · rw [if_pos hfd]
    cases hopen : env.fsState.files fd with
    | none => exact ⟨fun _ _ _ h => absurd rfl h, fun _ => rfl⟩
    | some file =>
      dsimp only
      cases hpos : host.streamPosition with
      | error e => exact ⟨fun _ _ _ _ h => (nomatch h), fun _ => rfl⟩
      | ok pos => exact store_returns_iff.trans ⟨fun h _ _ _ _ => h, fun h => h pos hfd nofun rfl⟩
  · rw [if_neg hfd]
    exact ⟨fun _ _ h => absurd h hfd, fun _ => rfl⟩

theorem sockRecv_returns_iff {fd riDataPtr riDataLen roDatalenPtr roFlagsPtr : Int32} :
    (env.sockRecv host networking fd riDataPtr riDataLen roDatalenPtr roFlagsPtr).isSome = true ↔
      (.sockRecv fd riDataPtr riDataLen roDatalenPtr roFlagsPtr : Import networking).Inside env host := by
  rw [sockRecv, Import.Inside]
  split_ifs with hnet hthere
  · rw [memory_bind_isSome_iff, scatter_returns_iff]
    exact ⟨fun h _ => ⟨h.1, fun _ => h.2⟩, fun h => ⟨(h hnet).1, (h hnet).2 hthere⟩⟩
  · rw [memory_bind_isSome_iff]
    exact ⟨fun h _ => ⟨h.1, fun h => absurd h hthere⟩, fun h => ⟨(h hnet).1, rfl⟩⟩
  · exact ⟨fun _ h => absurd h hnet, fun _ => rfl⟩

theorem sockSend_returns_iff {fd siDataPtr siDataLen soDatalenPtr : Int32} :
    (env.sockSend host networking fd siDataPtr siDataLen soDatalenPtr).isSome = true ↔
      (.sockSend fd siDataPtr siDataLen soDatalenPtr : Import networking).Inside env host := by
  rw [sockSend, Import.Inside]
  split_ifs with hnet hthere
  · rw [memory_bind_isSome_iff, gather_returns_iff]
    exact ⟨fun h _ => ⟨h.1, fun _ => h.2⟩, fun h => ⟨(h hnet).1, (h hnet).2 hthere⟩⟩
  · rw [memory_bind_isSome_iff]
    exact ⟨fun h _ => ⟨h.1, fun h => absurd h hthere⟩, fun h => ⟨(h hnet).1, rfl⟩⟩
  · exact ⟨fun _ h => absurd h hnet, fun _ => rfl⟩

theorem sockAccept_returns_iff {fd resultFdPtr : Int32} :
    (env.sockAccept host networking fd resultFdPtr).isSome = true ↔
      (.sockAccept fd resultFdPtr : Import networking).Inside env host := by
  rw [sockAccept, Import.Inside]
  split_ifs with hnet
  · rw [memory_bind_isSome_iff, WasiSocketState.acceptTcp]
    refine Iff.trans (and_congr_right fun _ => ?_) ⟨fun h _ => h, fun h => h hnet⟩
    cases hlistener : env.socketState.listeners fd with
    | false => exact ⟨fun _ h => (nomatch h), fun _ => rfl⟩
    | true =>
      rw [if_neg (by decide)]
      cases haccept : host.network (.accept fd) with
      | error e =>
        refine ⟨fun _ _ h => (nomatch h), fun _ => ?_⟩
        cases e <;> rfl
      | ok u => exact store_returns_iff.trans ⟨fun h _ _ => h, fun h => h rfl rfl⟩
  · exact ⟨fun _ h => absurd h hnet, fun _ => rfl⟩

theorem fdClose_returns {fd : Int32} : (env.fdClose networking fd).isSome = true := by
  unfold fdClose Descriptors.fdClose
  split_ifs <;> rfl

theorem fdReaddir_returns {fd : Int32} : (env.fdReaddir fd).isSome = true := by
  unfold fdReaddir
  split_ifs
  · rfl
  · split <;> rfl

theorem sockShutdown_returns {fd how : Int32} : (env.sockShutdown host networking fd how).isSome = true := by
  unfold sockShutdown
  split_ifs
  · split <;> rfl
  · rfl
  · rfl
  · rfl

end WasiEnv

open WasiEnv in
/-- **Which calls return**: those that touch nothing outside the guest's memory, and whose counts stay in 32 bits. -/
theorem serve_returns_iff {networking : Bool} (env : WasiEnv) (host : WasiHost) (c : Import networking) :
    (c.serve env host).isSome = true ↔ c.Inside env host := by
  cases c with
  | stub s => exact ⟨fun _ => trivial, fun _ => rfl⟩
  | clockTimeGet resultPtr => exact clockTimeGet_returns_iff
  | clockResGet resolutionPtr => exact store_returns_iff
  | argsSizesGet argcPtr argvBufSizePtr => exact store_returns_iff
  | environSizesGet countPtr bufSizePtr => exact store_returns_iff
  | randomGet bufPtr bufLen => exact randomGet_returns_iff
  | fdWrite fd iovsPtr iovsLen nwrittenPtr => exact fdWrite_returns_iff
  | fdRead fd iovsPtr iovsLen nreadPtr => exact fdRead_returns_iff
  | fdClose fd => exact ⟨fun _ => trivial, fun _ => fdClose_returns⟩
  | fdFdstatGet fd statPtr => exact fdFdstatGet_returns_iff
  | fdSeek fd offset whence resultPtr => exact fdSeek_returns_iff
  | fdTell fd offsetPtr => exact fdTell_returns_iff
  | fdReaddir fd => exact ⟨fun _ => trivial, fun _ => fdReaddir_returns⟩
  | path c => exact path_returns_iff
  | pollOneoff inPtr outPtr nsubscriptions neventsPtr => exact pollOneoff_returns_iff
  | sockAccept fd resultFdPtr => exact sockAccept_returns_iff
  | sockRecv fd riDataPtr riDataLen roDatalenPtr roFlagsPtr => exact sockRecv_returns_iff
  | sockSend fd siDataPtr siDataLen soDatalenPtr => exact sockSend_returns_iff
  | sockShutdown fd how => exact ⟨fun _ => trivial, fun _ => sockShutdown_returns⟩
  | tcpConnect enabled hostPtr hostLen port => exact tcp_returns_iff fun mem => ⟨_, rfl⟩
  | tcpListen enabled hostPtr hostLen port => exact tcp_returns_iff fun mem => ⟨_, rfl⟩

/-! ### A call that panics -/

def quietHost : WasiHost where
  clock := some 0
  random n := ⟨List.replicate n 0, List.length_replicate⟩
  write _ _ := .ok ⟨0, Nat.zero_le _⟩
  read _ _ := .ok ⟨[], Nat.zero_le _⟩
  prints _ _ := true
  seek _ := .ok 0
  streamPosition := .ok 0
  shutdown _ := .ok ()
  fileSystem _ := .ok ()
  network _ := .ok ()

def onePage : WasiEnv where
  memory := some { bytes := fun _ => 0, size := 65536, size_le := page_le }
  stdinBuffer := []
  fsState := .new []
  socketState := .new none

/-- `random_get` is asked for a buffer of the length -1. -/
theorem randomGet_panics :
    ¬∀ (networking : Bool) (env : WasiEnv) (host : WasiHost) (c : Import networking),
      (c.serve env host).isSome = true := by
  intro hall
  exact absurd (hall false onePage quietHost (.randomGet 0 (-1))) (by decide +kernel)

end VelocityMcp.Wasm
