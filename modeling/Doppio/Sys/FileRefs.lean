import Doppio.Sys.ScmRights

/-! References to open files: `kernel/vfs/file.c`, `proc_alloc_fd`, `fdget`, and the calls that
take, move or give back a reference, each one step. What a call holds between `fdget` and `fdput`,
or after `file_alloc`, is in flight; so is a file in the ring of a socket. -/
namespace Doppio
namespace FileRefs
open Function
open ScmRights (FPtr maxFiles sizeofCmsghdr maxToPass pushFiles popFiles)

abbrev VPtr := ℕ

structure File where
  vn : Option VPtr
  flags : BitVec 32
  refcnt : BitVec 32

/-- A socket of a pair, named by its vnode. -/
structure Sock where
  peer : Option VPtr
  /-- the state is `SS_CONNECTED` -/
  connected : Bool
  passed : ScmRights.Passed

/-- `sock_alloc`, and the stores that connect it to `peer`. -/
def sockAlloc (peer : VPtr) : Sock := ⟨some peer, true, ⟨fun _ => 0, 0, 0⟩⟩

def oNonblock : BitVec 32 := 0x800
def oCloexec : BitVec 32 := 0x80000

/-- Files and vnodes below `nextFile` and `nextVnode` are allocated. -/
structure State (P : Type) where
  file : FPtr → File
  nextFile : FPtr
  nextVnode : VPtr
  live : P → Bool
  fds : P × Fin maxFiles → Option FPtr
  /-- the references held by calls in progress -/
  held : List FPtr
  /-- the sockets that are not freed -/
  sock : VPtr → Option Sock
  /-- the vnodes that `vput` has dropped, before `inactive` -/
  inactive : List VPtr
  /-- how often the file's reference to its vnode was dropped -/
  vputs : FPtr → ℕ

/-- The allocations and copies of `sys_pipe2` and `sys_socketpair`. -/
structure Fate where
  buf : Bool
  vn1 : Bool
  vn2 : Bool
  file1 : Bool
  file2 : Bool
  copied : Bool
  deriving DecidableEq

inductive Event (P : Type) where
  | vnodeAlloc
  /-- a call opens a vnode that is no socket -/
  | fileAlloc (v : VPtr) (flags : BitVec 32)
  /-- the call that holds the file calls `proc_alloc_fd` -/
  | procAllocFd (p : P) (f : FPtr)
  | fdget (p : P) (fd : ℤ)
  | fdput (f : FPtr)
  | close (p : P) (fd : ℤ)
  | dupfd (p : P) (fd : ℤ) (arg : BitVec 64)
  /-- the loop of `sys_fork` and `sys_clone`; `c` is the new process -/
  | copyTable (p c : P)
  /-- the process exits, or its creation fails -/
  | procFree (p : P)
  | exec (p : P)
  | pipe2 (p : P) (flags : BitVec 32) (fate : Fate)
  | socketpair (p : P) (type : BitVec 32) (fate : Fate)
  /-- the message could be read; the descriptors it carries -/
  | sendmsg (p : P) (fd : ℤ) (msg : Option (List ℤ))
  /-- data was received, with a control buffer of this length -/
  | recvmsg (p : P) (fd : ℤ) (control : Option (BitVec 64))
  | sockClose (v : VPtr)

namespace State
variable {P : Type}

section
variable (s : State P)

def setFile (f : FPtr) (x : File) : State P :=
  { s with file := update s.file f x }

/-- `file_alloc` of `nextFile`, and the stores to `f_vn` and `f_flags`. -/
def fileAlloc (v : VPtr) (flags : BitVec 32) : State P :=
  { s.setFile s.nextFile ⟨some v, flags, 1⟩ with nextFile := s.nextFile + 1 }

def fileRef (f : FPtr) : State P :=
  s.setFile f { s.file f with refcnt := (s.file f).refcnt + 1 }

def vput (v : VPtr) : State P := { s with inactive := s.inactive ++ [v] }

def fileClose (f : FPtr) : State P :=
  if (s.file f).refcnt = 1 then
    match (s.file f).vn with
    | none => s.setFile f { s.file f with refcnt := 0 }
    | some v =>
      { (s.setFile f { s.file f with refcnt := 0, vn := none }).vput v with
        vputs := update s.vputs f (s.vputs f + 1) }
  else s.setFile f { s.file f with refcnt := (s.file f).refcnt - 1 }

def fileCloses (fs : List FPtr) : State P := fs.foldl fileClose s

def hold (f : FPtr) : State P := { s with held := s.held ++ [f] }

/-- `vnode_alloc` of `nextVnode`. -/
def vnodeAlloc : State P := { s with nextVnode := s.nextVnode + 1 }

def setSock (v : VPtr) (k : Option Sock) : State P :=
  { s with sock := update s.sock v k }

end

variable [DecidableEq P]

section
variable (s : State P)

variable (p : P)

def setFd (i : Fin maxFiles) (f : Option FPtr) : State P :=
  { s with fds := update s.fds (p, i) f }

def procAllocFd (f : FPtr) : State P × Option (Fin maxFiles) :=
  match (List.finRange maxFiles).find? fun i => s.fds (p, i) = none with
  | none => (s, none)
  | some i => ((s.fileRef f).setFd p i (some f), some i)

def fdget (fd : ℤ) : State P × Option FPtr :=
  match (ScmRights.State.slot fd).bind fun i => s.fds (p, i) with
  | none => (s, none)
  | some f => if (s.file f).refcnt = 0 then (s, none) else (s.fileRef f, some f)

def close (fd : ℤ) : State P :=
  match ScmRights.State.slot fd with
  | none => s
  | some i =>
    match s.fds (p, i) with
    | none => s
    | some f => (s.setFd p i none).fileClose f

def dupfd (fd : ℤ) (arg : BitVec 64) : State P :=
  match s.fdget p fd with
  | (s, none) => s
  | (s, some f) =>
    match ScmRights.State.slot (arg.setWidth 32).toInt with
    | none => s.fileClose f
    | some minfd =>
      match (List.finRange maxFiles).find? fun i => minfd ≤ i ∧ s.fds (p, i) = none with
      | none => s.fileClose f
      | some i => ((s.setFd p i (some f)).fileRef f).fileClose f

/-- One turn of the loop that copies the table. -/
def copyFd (p c : P) (s : State P) (i : Fin maxFiles) : State P :=
  match s.fds (p, i) with
  | none => s.setFd c i none
  | some f => (s.setFd c i (some f)).fileRef f

def copyTable (p c : P) : State P :=
  (List.finRange maxFiles).foldl (copyFd p c) { s with live := update s.live c true }

/-- One turn of the loop of `proc_free`. -/
def freeFd (s : State P) (i : Fin maxFiles) : State P :=
  match s.fds (p, i) with
  | none => s
  | some f => (s.fileClose f).setFd p i none

def procFree : State P :=
  let s := (List.finRange maxFiles).foldl (freeFd p) s
  { s with live := update s.live p false }

/-- One turn of the loop of `execve` that collects what to close. -/
def takeCloexec (r : State P × List FPtr) (i : Fin maxFiles) : State P × List FPtr :=
  match r.1.fds (p, i) with
  | none => r
  | some f =>
    if (r.1.file f).flags &&& oCloexec = 0 then r else (r.1.setFd p i none, r.2 ++ [f])

def exec : State P :=
  let (s, toClose) := (List.finRange maxFiles).foldl (takeCloexec p) (s, [])
  s.fileCloses toClose

/-- The end of `sys_pipe2` and `sys_socketpair`. -/
def installPair (f₁ f₂ : FPtr) (copied : Bool) : State P :=
  match s.procAllocFd p f₁ with
  | (s, none) => (s.fileClose f₁).fileClose f₂
  | (s, some fd₁) =>
    match (s.fileClose f₁).procAllocFd p f₂ with
    | (s, none) => ((s.setFd p fd₁ none).fileClose f₁).fileClose f₂
    | (s, some fd₂) =>
      let s := s.fileClose f₂
      if copied then s
      else (((s.setFd p fd₁ none).setFd p fd₂ none).fileClose f₁).fileClose f₂

/-- The flags of a file from `sys_pipe2` or `sys_socketpair`. -/
def openFlags (mode arg : BitVec 32) : BitVec 32 :=
  mode ||| (if arg &&& oNonblock = 0 then 0 else oNonblock) |||
    (if arg &&& oCloexec = 0 then 0 else oCloexec)

/-- `sys_pipe2` and `sys_socketpair` from the first `file_alloc` on. -/
def openPair (v₁ v₂ : VPtr) (flags₁ flags₂ : BitVec 32) (fate : Fate) : State P :=
  if ¬fate.file1 then (s.vput v₁).vput v₂
  else
    let f₁ := s.nextFile
    let s := s.fileAlloc v₁ flags₁
    if ¬fate.file2 then (s.fileClose f₁).vput v₂
    else
      let f₂ := s.nextFile
      (s.fileAlloc v₂ flags₂).installPair p f₁ f₂ fate.copied

def pipe2 (flags : BitVec 32) (fate : Fate) : State P :=
  if ¬fate.buf ∨ ¬fate.vn1 then s
  else
    let v₁ := s.nextVnode
    let s := s.vnodeAlloc
    if ¬fate.vn2 then s.vput v₁
    else
      let v₂ := s.nextVnode
      s.vnodeAlloc.openPair p v₁ v₂ (openFlags 0 flags) (openFlags 1 flags) fate

/-- `fate.buf` is false where an argument is refused or a socket has no memory. Without a second
vnode both empty sockets are freed. -/
def socketpair (type : BitVec 32) (fate : Fate) : State P :=
  if ¬fate.buf ∨ ¬fate.vn1 then s
  else
    let v₁ := s.nextVnode
    let s := s.vnodeAlloc
    if ¬fate.vn2 then s
    else
      let v₂ := s.nextVnode
      let s := (s.vnodeAlloc.setSock v₁ (some (sockAlloc v₂))).setSock v₂ (some (sockAlloc v₁))
      s.openPair p v₁ v₂ (openFlags 2 type) (openFlags 2 type) fate

end

/-- The loop of `sys_sendmsg` that fills `local_files`. -/
def fdgetAll (p : P) : State P → List ℤ → State P × List FPtr
  | s, [] => (s, [])
  | s, fd :: fds =>
    match s.fdget p fd with
    | (s, none) => fdgetAll p s fds
    | (s, some f) =>
      let (s, fs) := fdgetAll p s fds
      (s, f :: fs)

variable (s : State P)

def sockOf (f : FPtr) : Option (VPtr × Sock) :=
  match (s.file f).vn with
  | none => none
  | some v => (s.sock v).map fun k => (v, k)

/-- The files of the descriptors are queued at the socket `w`, or given back. -/
def sendFiles (p : P) (w : VPtr) (k : Sock) (fds : List ℤ) : State P :=
  let (s, files) := s.fdgetAll p (fds.take 64)
  let (r, _, closed) := pushFiles k.passed files
  (s.setSock w (some { k with passed := r })).fileCloses closed

/-- `sys_sendmsg`; no next state where the peer is freed. -/
def sendmsg (p : P) (fd : ℤ) (msg : Option (List ℤ)) : Option (State P) :=
  match s.fdget p fd with
  | (s, none) => some s
  | (s, some f) =>
    match s.sockOf f, msg with
    | some (_, k), some fds =>
      match k.peer with
      | none => some (s.fileClose f)
      | some w =>
        match s.sock w with
        | none => none
        | some kp =>
          if ¬kp.connected then some (s.fileClose f)
          else some ((s.sendFiles p w kp fds).fileClose f)
    | _, _ => some (s.fileClose f)

/-- A received file gets a free descriptor, and the ring's reference is given back. -/
def installFile (p : P) (s : State P) (f : FPtr) : State P := (s.procAllocFd p f).1.fileClose f

def recvmsg (p : P) (fd : ℤ) (control : Option (BitVec 64)) : State P :=
  match s.fdget p fd with
  | (s, none) => s
  | (s, some f) =>
    match s.sockOf f, control with
    | some (v, k), some len =>
      if sizeofCmsghdr ≤ len then
        let (files, r) := popFiles k.passed (maxToPass len).toNat
        (files.foldl (installFile p) (s.setSock v (some { k with passed := r }))).fileClose f
      else s.fileClose f
    | _, _ => s.fileClose f

def detach (v : VPtr) (peer : Option VPtr) : Option (State P) :=
  match peer with
  | none => some s
  | some w =>
    match s.sock w with
    | none => none
    | some k =>
      some (if k.peer = some v then s.setSock w (some { k with peer := none, connected := false })
        else s)

/-- `inactive`: `sock_close` and `sock_free` for a socket. -/
def sockClose (v : VPtr) : Option (State P) :=
  match s.sock v with
  | none => some s
  | some k =>
    (s.detach v k.peer).map fun s =>
      (s.setSock v none).fileCloses (popFiles k.passed ScmRights.unixSocketMaxPassedFds).1

/-- One call; none where it is not possible or freed memory is read. -/
def step : Event P → Option (State P)
  | .vnodeAlloc => some s.vnodeAlloc
  | .fileAlloc v flags =>
    if v < s.nextVnode ∧ (s.sock v).isNone then
      some ((s.fileAlloc v flags).hold s.nextFile)
    else none
  | .procAllocFd p f => if s.live p ∧ f ∈ s.held then some (s.procAllocFd p f).1 else none
  | .fdget p fd =>
    if s.live p then
      match s.fdget p fd with
      | (s, none) => some s
      | (s, some f) => some (s.hold f)
    else none
  | .fdput f => if f ∈ s.held then some ({ s with held := s.held.erase f }.fileClose f) else none
  | .close p fd => if s.live p then some (s.close p fd) else none
  | .dupfd p fd arg => if s.live p then some (s.dupfd p fd arg) else none
  | .copyTable p c => if s.live p ∧ ¬s.live c then some (s.copyTable p c) else none
  | .procFree p => if s.live p then some (s.procFree p) else none
  | .exec p => if s.live p then some (s.exec p) else none
  | .pipe2 p flags fate => if s.live p then some (s.pipe2 p flags fate) else none
  | .socketpair p type fate => if s.live p then some (s.socketpair p type fate) else none
  | .sendmsg p fd msg => if s.live p then s.sendmsg p fd msg else none
  | .recvmsg p fd control => if s.live p then some (s.recvmsg p fd control) else none
  | .sockClose v =>
    if v ∈ s.inactive then { s with inactive := s.inactive.erase v }.sockClose v else none

end State
end FileRefs
end Doppio
