import VelocityMcp.Lib.Machine
import VelocityMcp.Wasm.WasiFiles

/-!
# Wasm.Descriptors — the numbers of files and sockets (`wasm_runtime/wasi.rs`, `wasm_runtime/wasi_net.rs`)

Files are numbered from 3 on, sockets and listeners from 1000 on.
-/

namespace VelocityMcp.Wasm

open Lib

/-! ## Sockets -/

def socketFdBase : Int32 := 1000
def errnoBadf : Errno := 8
def errnoNosys : Errno := 52
def errnoConnrefused : Errno := 61
def errnoConnaborted : Errno := 62
def errnoTimedout : Errno := 73

/-- What is asked of the network. -/
inductive NetOp where
  | connect (host : String) (port : UInt16)
  | listen (host : String) (port : UInt16)
  | accept (listener : Int32)
deriving DecidableEq, Repr

/-- How it fails; `nonblocking` is the failure of `set_nonblocking`. -/
inductive NetError where
  | refused
  | timedOut
  | addrInUse
  | permissionDenied
  | wouldBlock
  | nonblocking
  | other
deriving DecidableEq, Repr

/-- The numbers in use, the next one, and the hosts that may be reached: all of them, if there is no list. -/
structure WasiSocketState where
  sockets : Int32 → Bool
  listeners : Int32 → Bool
  nextFd : Int32
  allowedHosts : Option (List String)

namespace WasiSocketState

/-- `WasiSocketState::new`, with its hosts. -/
def new (allowedHosts : Option (List String)) : WasiSocketState :=
  ⟨fun _ => false, fun _ => false, socketFdBase, allowedHosts⟩

def isHostAllowed (net : WasiSocketState) (host : String) : Bool :=
  match net.allowedHosts with
  | none => true
  | some hosts => hosts.any (· = host)

def insertSocket (net : WasiSocketState) : WasiSocketState :=
  { net with sockets := Function.update net.sockets net.nextFd true, nextFd := net.nextFd + 1 }

def insertListener (net : WasiSocketState) : WasiSocketState :=
  { net with listeners := Function.update net.listeners net.nextFd true, nextFd := net.nextFd + 1 }

variable (net : WasiSocketState) (network : NetOp → Except NetError Unit)

def connectTcp (host : String) (port : UInt16) : WasiSocketState × Except Errno Int32 :=
  if !net.isHostAllowed host then (net, .error errnoConnrefused)
  else match network (.connect host port) with
    | .ok () => (net.insertSocket, .ok net.nextFd)
    | .error .refused => (net, .error errnoConnrefused)
    | .error .timedOut => (net, .error errnoTimedout)
    | .error _ => (net, .error errnoConnaborted)

def listenTcp (host : String) (port : UInt16) : WasiSocketState × Except Errno Int32 :=
  if !net.isHostAllowed host then (net, .error errnoConnrefused)
  else match network (.listen host port) with
    | .ok () => (net.insertListener, .ok net.nextFd)
    | .error .permissionDenied => (net, .error errnoConnrefused)
    | .error _ => (net, .error errnoConnaborted)

def acceptTcp (listener : Int32) : WasiSocketState × Except Errno Int32 :=
  if !net.listeners listener then (net, .error errnoBadf)
  else match network (.accept listener) with
    | .ok () => (net.insertSocket, .ok net.nextFd)
    | .error .wouldBlock => (net, .error errnoNosys)
    | .error _ => (net, .error errnoConnaborted)

/-- `close`: a listener goes only where there is no socket of that number. -/
def close (fd : Int32) : WasiSocketState × Bool :=
  if net.sockets fd then ({ net with sockets := Function.update net.sockets fd false }, true)
  else ({ net with listeners := Function.update net.listeners fd false }, net.listeners fd)

end WasiSocketState

/-! ## The guest's calls -/

/-- A number that `path_open` has returned, and the tables that it was returned into. -/
structure Returned where
  fd : Int32
  fs : WasiFsState
  net : WasiSocketState

/-- The two tables, and the numbers that `path_open` has returned, the last one first.  The code keeps no such list. -/
structure Descriptors where
  fs : WasiFsState
  net : WasiSocketState
  returned : List Returned

/-- The calls that open or close something. -/
inductive WasiCall where
  | path (c : PathCall)
  | fdClose (fd : Int32)
  | tcpConnect (hostPtr hostLen port : Int32)
  | tcpListen (hostPtr hostLen port : Int32)
  | sockAccept (fd resultFdPtr : Int32)
deriving DecidableEq, Repr

/-- A call, the guest's memory, and what the host's file system and network answer. -/
structure WasiAction where
  call : WasiCall
  memory : GuestMemory
  host : FsOp → Except ErrorKind Unit
  network : NetOp → Except NetError Unit

namespace Descriptors

/-- A new `WasiEnv`. -/
def start (preopens : List PathBuf) (allowedHosts : Option (List String)) : Descriptors :=
  ⟨.new preopens, .new allowedHosts, []⟩

variable (s : Descriptors) (a : WasiAction)

def withFs (fs : WasiFsState) : Descriptors := { s with fs := fs }

def withNet (net : WasiSocketState) : Descriptors := { s with net := net }

/-- A call of a function that takes paths; what it returns, if it does not panic. -/
def servePath (c : PathCall) : Descriptors × Option Int32 :=
  let r := c.serve s.fs a.memory a.host
  match c, r.result with
  | .pathOpen _ _ _, .ok () => (⟨r.fs, s.net, ⟨s.fs.nextFd, s.fs, s.net⟩ :: s.returned⟩, some 0)
  | _, .ok () => (s.withFs r.fs, some 0)
  | _, .err e => (s.withFs r.fs, some e)
  | _, .panic => (s.withFs r.fs, none)

/-- `fd_close`, with and without `wasm-networking`. -/
def fdClose (networking : Bool) (fd : Int32) : Descriptors × Option Int32 :=
  if networking && socketFdBase ≤ fd then
    match s.net.close fd with
    | (net, found) => (s.withNet net, some (if found then 0 else errnoBadf))
  else if 3 ≤ fd then (s.withFs (s.fs.removeFile fd), some (if (s.fs.files fd).isSome then 0 else errnoBadf))
  else (s, some errnoBadf)

/-- The host's name is read; an error number is returned below zero. -/
def withHost (hostPtr hostLen : Int32) (f : String → WasiSocketState × Except Errno Int32) :
    Descriptors × Option Int32 :=
  match a.memory.read (asU64 hostPtr) (asU64 hostLen) with
  | none => (s, none)
  | some b => match fromUtf8 b with
    | none => (s, some (-errnoBadf))
    | some host => match f host with
      | (net, .ok fd) => (s.withNet net, some fd)
      | (net, .error e) => (s.withNet net, some (-e))

/-- The imports of `wasm-networking` read the host's name out of the guest's memory. -/
def tcpConnect (hostPtr hostLen port : Int32) : Descriptors × Option Int32 :=
  s.withHost a hostPtr hostLen fun host => s.net.connectTcp a.network host port.toUInt32.toUInt16

def tcpListen (hostPtr hostLen port : Int32) : Descriptors × Option Int32 :=
  s.withHost a hostPtr hostLen fun host => s.net.listenTcp a.network host port.toUInt32.toUInt16

/-- `sock_accept`: the number is written to the guest's memory last. -/
def sockAccept (fd resultFdPtr : Int32) : Descriptors × Option Int32 :=
  match s.net.acceptTcp a.network fd with
  | (net, .error e) => (s.withNet net, some e)
  | (net, .ok newFd) =>
    match a.memory.write (asU64 resultFdPtr) (leBytes 4 newFd.toUInt32.toNat) with
    | .ok _ => (s.withNet net, some 0)
    | _ => (s.withNet net, none)

/-- Without `wasm-networking`, `sock_accept` returns an error, and the other two are not there. -/
def serve (networking : Bool) : Descriptors × Option Int32 :=
  match a.call with
  | .path c => s.servePath a c
  | .fdClose fd => s.fdClose networking fd
  | .tcpConnect hostPtr hostLen port => if networking then s.tcpConnect a hostPtr hostLen port else (s, none)
  | .tcpListen hostPtr hostLen port => if networking then s.tcpListen a hostPtr hostLen port else (s, none)
  | .sockAccept fd resultFdPtr => if networking then s.sockAccept a fd resultFdPtr else (s, some errnoInval)

/-- A panic ends the process. -/
def step (networking : Bool) (s : Descriptors) (a : WasiAction) : Option Descriptors :=
  match s.serve a networking with
  | (s', some _) => some s'
  | (_, none) => none

/-- The file is open under the next number, which is returned. -/
def opened (file : File) : Descriptors :=
  ⟨s.fs.allocFd.insertFile s.fs.nextFd file, s.net, ⟨s.fs.nextFd, s.fs, s.net⟩ :: s.returned⟩

end Descriptors

/-! ## What numbers denote -/

/-- Standard input, output and error, and the first preopened directory. -/
def Reserved (fd : Int32) : Prop := fd ∈ [0, 1, 2, 3]

def WasiSocketState.InUse (net : WasiSocketState) (fd : Int32) : Prop :=
  net.sockets fd = true ∨ net.listeners fd = true

/-- A number that denoted nothing when it was returned. -/
structure Returned.New (r : Returned) : Prop where
  notReserved : ¬Reserved r.fd
  notFile : r.fs.files r.fd = none
  notSocket : ¬r.net.InUse r.fd

/-- No number denotes two things. -/
structure Descriptors.Disjoint (s : Descriptors) : Prop where
  returned : ∀ r ∈ s.returned, r.New
  files : ∀ fd, (s.fs.files fd).isSome → ¬Reserved fd ∧ ¬s.net.InUse fd

/-- `path_open` opens the file: the path passes the check, and the system opens it. -/
structure OpensFile (preopens : List PathBuf) (mem : GuestMemory) (host : FsOp → Except ErrorKind Unit)
    (dir : PathArg) (oFlags : Int32) (path : PathBuf) : Prop where
  passes : hostPath preopens mem dir = .ok path
  noNul : 0 ∉ path
  opens : host (.openFile ⟨path, openOptions oFlags⟩) = .ok ()

/-- A `path_open` that opens its file. -/
def WasiAction.Opens (preopens : List PathBuf) (a : WasiAction) : Prop :=
  ∃ dir oFlags fdPtr path, a.call = .path (.pathOpen dir oFlags fdPtr) ∧
    OpensFile preopens a.memory a.host dir oFlags path

/-! ## What a call can do -/

namespace Descriptors

/-- The calls that return no number of a file. -/
inductive Quiet (s : Descriptors) : Descriptors → Prop where
  | same : Quiet s s
  | fileClosed (fd : Int32) : Quiet s (s.withFs (s.fs.removeFile fd))
  | socketClosed (fd : Int32) : Quiet s (s.withNet (s.net.close fd).1)
  | socket : Quiet s (s.withNet s.net.insertSocket)
  | listener : Quiet s (s.withNet s.net.insertListener)

variable {s s' : Descriptors} {a : WasiAction} {networking : Bool}

theorem quiet_connectTcp (host : String) (port : UInt16) :
    Quiet s (s.withNet (s.net.connectTcp a.network host port).1) := by
  unfold WasiSocketState.connectTcp
  split_ifs
  · exact .same
  · split
    · exact .socket
    · exact .same
    · exact .same
    · exact .same

theorem quiet_listenTcp (host : String) (port : UInt16) :
    Quiet s (s.withNet (s.net.listenTcp a.network host port).1) := by
  unfold WasiSocketState.listenTcp
  split_ifs
  · exact .same
  · split
    · exact .listener
    · exact .same
    · exact .same

theorem quiet_acceptTcp (fd : Int32) : Quiet s (s.withNet (s.net.acceptTcp a.network fd).1) := by
  unfold WasiSocketState.acceptTcp
  split_ifs
  · exact .same
  · split
    · exact .socket
    · exact .same
    · exact .same

theorem quiet_withHost {hostPtr hostLen : Int32} {f : String → WasiSocketState × Except Errno Int32}
    (hf : ∀ host, Quiet s (s.withNet (f host).1)) : Quiet s (s.withHost a hostPtr hostLen f).1 := by
  unfold withHost
  split
  · exact .same
  · split
    · exact .same
    · next host _ =>
      have h := hf host
      revert h
      rcases f host with ⟨net, e | fd⟩
      · exact id
      · exact id

theorem quiet_fdClose (fd : Int32) : Quiet s (s.fdClose networking fd).1 := by
  unfold fdClose
  split
  · exact .socketClosed fd
  · split
    · exact .fileClosed fd
    · exact .same

theorem quiet_sockAccept (fd resultFdPtr : Int32) : Quiet s (s.sockAccept a fd resultFdPtr).1 := by
  have h := quiet_acceptTcp (s := s) (a := a) fd
  unfold sockAccept
  revert h
  rcases s.net.acceptTcp a.network fd with ⟨net, e | newFd⟩
  · exact id
  · intro h
    dsimp only
    split
    · exact h
    · exact h

/-- **`path_open`** opens a file under the next number, or changes nothing. -/
theorem pathOpen_cases (fs : WasiFsState) (mem : GuestMemory) (host : FsOp → Except ErrorKind Unit) (dir : PathArg)
    (oFlags fdPtr : Int32) :
    (∃ path, OpensFile fs.preopens mem host dir oFlags path ∧
      (pathOpen fs mem host dir oFlags fdPtr).fs = fs.allocFd.insertFile fs.nextFd ⟨path, openOptions oFlags⟩ ∧
      ∀ e, (pathOpen fs mem host dir oFlags fdPtr).result ≠ .err e) ∨
    ((∀ path, ¬OpensFile fs.preopens mem host dir oFlags path) ∧
      (pathOpen fs mem host dir oFlags fdPtr).fs = fs ∧
      (pathOpen fs mem host dir oFlags fdPtr).result ≠ .ok ()) := by
  unfold pathOpen
  cases hpath : hostPath fs.preopens mem dir with
  | err e => exact Or.inr ⟨fun p hp => absurd (hpath.symm.trans hp.passes) (by simp), rfl, fun h => by cases h⟩
  | panic => exact Or.inr ⟨fun p hp => absurd (hpath.symm.trans hp.passes) (by simp), rfl, fun h => by cases h⟩
  | ok path =>
    have hsame : ∀ p, OpensFile fs.preopens mem host dir oFlags p → path = p := fun p hp =>
      Outcome.ok.inj (hpath.symm.trans hp.passes)
    rw [Served.withPath]
    by_cases hzero : 0 ∈ path
    · rw [perform_nul (List.any_eq_true.mpr ⟨path, List.mem_cons_self, decide_eq_true hzero⟩)]
      refine Or.inr ⟨fun p hp => ?_, rfl, by simp⟩
      obtain rfl := hsame p hp
      exact hp.noNul hzero
    · have hnul : (FsOp.openFile ⟨path, openOptions oFlags⟩).hasNul = false :=
        hasNul_eq_false.mpr fun p hp => List.mem_singleton.mp hp ▸ hzero
      rw [perform_some hnul]
      cases hhost : host (.openFile ⟨path, openOptions oFlags⟩) with
      | error kind =>
        refine Or.inr ⟨fun p hp => ?_, rfl, by simp⟩
        obtain rfl := hsame p hp
        cases hhost.symm.trans hp.opens
      | ok u =>
        refine Or.inl ⟨path, ⟨hpath, hzero, hhost⟩, ?_⟩
        cases mem.write (asU64 fdPtr) (leBytes 4 fs.nextFd.toUInt32.toNat) with
        | ok mem' => exact ⟨rfl, by simp⟩
        | err e => exact ⟨rfl, by simp⟩
        | panic => exact ⟨rfl, by simp⟩

theorem ofOp_fs {fs : WasiFsState} {mem : GuestMemory} {host : FsOp → Except ErrorKind Unit}
    {errno : ErrorKind → Errno} (op : FsOp) : (Served.ofOp fs mem host errno op).fs = fs := by
  unfold Served.ofOp
  split
  · rfl
  · rfl

theorem withPath_fs {α : Type} {fs : WasiFsState} {mem : GuestMemory} {path : Outcome Errno α} {f : α → Served}
    (hf : ∀ p, (f p).fs = fs) : (Served.withPath fs mem path f).fs = fs := by
  cases path with
  | ok p => exact hf p
  | err e => rfl
  | panic => rfl

theorem quiet_servePath {c : PathCall} (h : (c.serve s.fs a.memory a.host).fs = s.fs)
    (hc : ∀ dir oFlags fdPtr, c ≠ .pathOpen dir oFlags fdPtr) : Quiet s (s.servePath a c).1 := by
  have hsame : Quiet s (s.withFs (c.serve s.fs a.memory a.host).fs) := by
    rw [h]
    exact .same
  unfold servePath
  dsimp only
  split
  · exact absurd rfl (hc _ _ _)
  · exact hsame
  · exact hsame
  · exact hsame

theorem servePath_pathOpen {dir : PathArg} {oFlags fdPtr : Int32} (hcall : a.call = .path (.pathOpen dir oFlags fdPtr))
    (hcode : (s.servePath a (.pathOpen dir oFlags fdPtr)).2 ≠ none) :
    (a.Opens s.fs.preopens ∧ ∃ file, (s.servePath a (.pathOpen dir oFlags fdPtr)).1 = s.opened file) ∨
      (¬a.Opens s.fs.preopens ∧ Quiet s (s.servePath a (.pathOpen dir oFlags fdPtr)).1) := by
  revert hcode
  unfold servePath PathCall.serve
  dsimp only
  rcases pathOpen_cases s.fs a.memory a.host dir oFlags fdPtr with ⟨path, hopens, hfs, herr⟩ | ⟨hno, hfs, hok⟩
  · rw [hfs]
    cases hresult : (Wasm.pathOpen s.fs a.memory a.host dir oFlags fdPtr).result with
    | ok u => exact fun _ => Or.inl ⟨⟨dir, oFlags, fdPtr, path, hcall, hopens⟩, _, rfl⟩
    | err e => exact absurd hresult (herr e)
    | panic => exact fun hcode => absurd rfl hcode
  · have hquiet : ¬a.Opens s.fs.preopens := by
      rintro ⟨dir', oFlags', fdPtr', path, hcall', hopens⟩
      obtain ⟨rfl, rfl, rfl⟩ : dir = dir' ∧ oFlags = oFlags' ∧ fdPtr = fdPtr' := by
        simpa using hcall.symm.trans hcall'
      exact hno path hopens
    rw [hfs]
    cases hresult : (Wasm.pathOpen s.fs a.memory a.host dir oFlags fdPtr).result with
    | ok u => exact absurd hresult hok
    | err e => exact fun _ => Or.inr ⟨hquiet, .same⟩
    | panic => exact fun hcode => absurd rfl hcode

theorem step_eq_some (h : step networking s a = some s') :
    (s.serve a networking).1 = s' ∧ (s.serve a networking).2 ≠ none := by
  unfold step at h
  revert h
  rcases s.serve a networking with ⟨t, _ | code⟩
  · exact nofun
  · exact fun h => ⟨Option.some.inj h, nofun⟩

/-- **One call.** -/
theorem step_moves (h : step networking s a = some s') :
    (a.Opens s.fs.preopens ∧ ∃ file, s' = s.opened file) ∨ (¬a.Opens s.fs.preopens ∧ Quiet s s') := by
  obtain ⟨rfl, hcode⟩ := step_eq_some h
  have hother : (∀ dir oFlags fdPtr, a.call ≠ .path (.pathOpen dir oFlags fdPtr)) → ¬a.Opens s.fs.preopens :=
    fun hc ⟨dir, oFlags, fdPtr, path, hcall, _⟩ => hc dir oFlags fdPtr hcall
  unfold serve at hcode ⊢
  cases hcall : a.call with
  | fdClose fd => exact Or.inr ⟨hother (by rw [hcall]; exact nofun), quiet_fdClose fd⟩
  | tcpConnect hostPtr hostLen port =>
    refine Or.inr ⟨hother (by rw [hcall]; exact nofun), ?_⟩
    dsimp only
    split
    · exact quiet_withHost fun host => quiet_connectTcp host _
    · exact .same
  | tcpListen hostPtr hostLen port =>
    refine Or.inr ⟨hother (by rw [hcall]; exact nofun), ?_⟩
    dsimp only
    split
    · exact quiet_withHost fun host => quiet_listenTcp host _
    · exact .same
  | sockAccept fd resultFdPtr =>
    refine Or.inr ⟨hother (by rw [hcall]; exact nofun), ?_⟩
    dsimp only
    split
    · exact quiet_sockAccept fd resultFdPtr
    · exact .same
  | path c =>
    rw [hcall] at hcode
    cases c with
    | pathCreateDirectory arg =>
      refine Or.inr ⟨hother (by rw [hcall]; exact nofun), quiet_servePath ?_ nofun⟩
      exact withPath_fs fun _ => ofOp_fs _
    | pathRename old new =>
      refine Or.inr ⟨hother (by rw [hcall]; exact nofun), quiet_servePath ?_ nofun⟩
      exact withPath_fs fun _ => ofOp_fs _
    | pathUnlinkFile arg =>
      refine Or.inr ⟨hother (by rw [hcall]; exact nofun), quiet_servePath ?_ nofun⟩
      exact withPath_fs fun _ => ofOp_fs _
    | pathOpen dir oFlags fdPtr =>
      exact servePath_pathOpen hcall hcode

/-! ## Runs -/

/-- Calls, one after the other. -/
def run (networking : Bool) (s : Descriptors) (as : List WasiAction) : Option Descriptors :=
  as.foldlM (step networking) s

structure Unopened (preopens : List PathBuf) (s : Descriptors) : Prop where
  preopens_eq : s.fs.preopens = preopens
  nextFd_eq : s.fs.nextFd = 3
  files_eq : ∀ fd, s.fs.files fd = none
  returned_eq : s.returned = []

variable {preopens : List PathBuf} {as : List WasiAction}

theorem unopened_start (preopens : List PathBuf) (allowedHosts : Option (List String)) :
    Unopened preopens (start preopens allowedHosts) := ⟨rfl, rfl, fun _ => rfl, rfl⟩

theorem Unopened.quiet (hs : Unopened preopens s) (h : Quiet s s') : Unopened preopens s' := by
  obtain ⟨hpreopens, hnext, hfiles, hreturned⟩ := hs
  cases h with
  | fileClosed fd =>
    refine ⟨hpreopens, hnext, fun fd' => ?_, hreturned⟩
    show Function.update s.fs.files fd none fd' = none
    rw [Function.update_apply, hfiles]
    exact ite_self none
  | same => exact ⟨hpreopens, hnext, hfiles, hreturned⟩
  | socketClosed fd => exact ⟨hpreopens, hnext, hfiles, hreturned⟩
  | socket => exact ⟨hpreopens, hnext, hfiles, hreturned⟩
  | listener => exact ⟨hpreopens, hnext, hfiles, hreturned⟩

theorem returned_of_step {r : Returned} (hr : r ∈ s.returned) (h : step networking s a = some s') : r ∈ s'.returned := by
  rcases step_moves h with ⟨-, file, rfl⟩ | ⟨-, hquiet⟩
  · exact List.mem_cons_of_mem _ hr
  · cases hquiet with
    | same => exact hr
    | fileClosed fd => exact hr
    | socketClosed fd => exact hr
    | socket => exact hr
    | listener => exact hr

theorem returned_of_run {r : Returned} (hr : r ∈ s.returned) (h : run networking s as = some s') : r ∈ s'.returned := by
  induction as generalizing s with
  | nil => exact Option.some.inj h ▸ hr
  | cons a as ih =>
    rw [run, List.foldlM_cons, Option.bind_eq_bind, Option.bind_eq_some_iff] at h
    obtain ⟨t, ht, h⟩ := h
    exact ih (returned_of_step hr ht) h

/-- **A run** returns 3, once it opens a file. -/
theorem run_unopened (hs : Unopened preopens s) (h : run networking s as = some s') :
    ((∀ a ∈ as, ¬a.Opens preopens) ∧ Unopened preopens s') ∨
      ((∃ a ∈ as, a.Opens preopens) ∧ ∃ r ∈ s'.returned, r.fd = 3) := by
  induction as generalizing s with
  | nil => exact Or.inl ⟨nofun, Option.some.inj h ▸ hs⟩
  | cons a as ih =>
    rw [run, List.foldlM_cons, Option.bind_eq_bind, Option.bind_eq_some_iff] at h
    obtain ⟨t, ht, h⟩ := h
    rcases step_moves ht with ⟨hopens, file, rfl⟩ | ⟨hno, hquiet⟩
    · rw [hs.preopens_eq] at hopens
      have hfirst : (⟨s.fs.nextFd, s.fs, s.net⟩ : Returned) ∈ (s.opened file).returned := List.mem_cons_self
      exact Or.inr ⟨⟨a, List.mem_cons_self, hopens⟩, _, returned_of_run hfirst h, hs.nextFd_eq⟩
    · rw [hs.preopens_eq] at hno
      rcases ih (hs.quiet hquiet) h with ⟨hall, ht⟩ | ⟨⟨b, hb, hopens⟩, hr⟩
      · exact Or.inl ⟨List.forall_mem_cons.mpr ⟨hno, hall⟩, ht⟩
      · exact Or.inr ⟨⟨b, List.mem_cons_of_mem a hb, hopens⟩, hr⟩

/-- **Descriptors**: every number denotes one thing exactly in the runs that open no file. -/
theorem disjoint_iff {networking : Bool} {preopens : List PathBuf} {allowedHosts : Option (List String)}
    {as : List WasiAction} {s : Descriptors} (h : run networking (start preopens allowedHosts) as = some s) :
    s.Disjoint ↔ ∀ a ∈ as, ¬a.Opens preopens := by
  rcases run_unopened (unopened_start preopens allowedHosts) h with ⟨hall, hs⟩ | ⟨⟨a, ha, hopens⟩, r, hr, hthree⟩
  · refine ⟨fun _ => hall, fun _ => ⟨fun r hr => ?_, fun fd hfd => ?_⟩⟩
    · rw [hs.returned_eq] at hr
      cases hr
    · rw [hs.files_eq] at hfd
      cases hfd
  · refine ⟨fun hs => absurd ?_ (hs.returned r hr).notReserved, fun hall => absurd hopens (hall a ha)⟩
    rw [Reserved, hthree]
    decide

/-- A guest opens a file in the preopened directory. -/
def openData : WasiAction where
  call := .path (.pathOpen ⟨3, 0, 8⟩ 1 1024)
  memory := memoryWith "data.txt"
  host _ := .ok ()
  network _ := .error .other

/-- A file in the preopened directory is opened. -/
theorem disjoint_iff_data : ∃ s, run true (start [utf8 "/srv"] none) [openData] = some s ∧
    (s.Disjoint ↔ ∀ a ∈ [openData], ¬a.Opens [utf8 "/srv"]) := by
  have hsome : (run true (start [utf8 "/srv"] none) [openData]).isSome = true := by decide +kernel
  obtain ⟨s, hs⟩ := Option.isSome_iff_exists.mp hsome
  exact ⟨s, hs, disjoint_iff hs⟩

/-- The first file gets the number of the preopened directory. -/
theorem three_returned : ∃ s, run true (start [utf8 "/srv"] none) [openData] = some s ∧
    (∃ r ∈ s.returned, r.fd = 3) ∧ ¬s.Disjoint := by
  have hthree : ((run true (start [utf8 "/srv"] none) [openData]).map fun s => s.returned.map Returned.fd) =
      some [3] := by decide +kernel
  obtain ⟨s, hs, hfds⟩ := Option.map_eq_some_iff.mp hthree
  obtain ⟨r, hr, hfd⟩ := List.mem_map.mp (hfds ▸ List.mem_cons_self : (3 : Int32) ∈ s.returned.map Returned.fd)
  refine ⟨s, hs, ⟨r, hr, hfd⟩, fun h => (h.returned r hr).notReserved ?_⟩
  rw [hfd, Reserved]
  decide

end Descriptors

end VelocityMcp.Wasm
