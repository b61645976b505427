import Doppio.Library.RefCount
import Doppio.Sys.SocketStream

/-! Descriptors that travel over a pair of sockets (`kernel/sys/sys_socket.c`): `sys_sendmsg` and
`sys_recvmsg` with one step for each section under a lock, `vfs_close`, and `sock_close` with the
last reference to the file of a socket. -/
namespace Doppio
namespace ScmRights
open Function
open SocketStream (SockBuf avail)

abbrev FPtr := ℕ

def maxFiles : ℕ := 256

instance : NeZero maxFiles := ⟨by decide⟩

def unixSocketMaxPassedFds : ℕ := 256

instance : NeZero unixSocketMaxPassedFds := ⟨by decide⟩

def solSocket : ℤ := 1
def scmRights : ℤ := 1

def sizeofCmsghdr : BitVec 64 := 16

abbrev Side := Bool

abbrev Passed := GapRing unixSocketMaxPassedFds FPtr

structure Sock where
  /-- the memory is a socket -/
  live : Bool
  /-- the state is `SS_CONNECTED` and `peer` is the other end -/
  connected : Bool
  buf : SockBuf
  /-- `passed_files`, `passed_head` and `passed_tail` -/
  passed : Passed

structure Cmsghdr where
  len : BitVec 64
  level : ℤ
  type : ℤ
  deriving DecidableEq

/-- What a sender's `msg_control` points to, as the kernel can read it. -/
structure Control where
  controllen : BitVec 64
  hdr : Option Cmsghdr
  fds : ℕ → Option ℤ

/-- It cannot be read, or the bytes, as the kernel can read them. -/
inductive SendVec where
  | fault
  | bytes (data : List (Option (BitVec 8)))
  deriving DecidableEq

structure SendMsg where
  control : Option Control
  iov : List SendVec

/-- `kmalloc` returns null, or the copy to the user fails. -/
inductive RecvVec where
  | fault
  | vec (len : ℕ) (nomem bad : Bool)
  deriving DecidableEq

structure RecvMsg where
  /-- `msg_controllen`, if `msg_control` is not null -/
  control : Option (BitVec 64)
  iov : List RecvVec
  deriving DecidableEq

variable {P : Type}

/-- A call between two sections, with the file of its socket and the end it sends to or receives
from. -/
inductive Call (P : Type) where
  /-- `sys_sendmsg` with the files in `local_files`; its descriptors name `named` -/
  | push (f : FPtr) (peer : Side) (named files : List FPtr) (iov : List SendVec)
  | write (f : FPtr) (peer : Side) (iov : List SendVec)
  /-- `sys_recvmsg` before its first `spin_lock` -/
  | lock (p : P) (f : FPtr) (d : Side) (m : RecvMsg)
  | wait (p : P) (f : FPtr) (d : Side) (m : RecvMsg)
  | iov (p : P) (f : FPtr) (d : Side) (control : Option (BitVec 64)) (iov : List RecvVec)
      (total : ℕ)
  | advance (p : P) (f : FPtr) (d : Side) (control : Option (BitVec 64)) (iov : List RecvVec)
      (total avail len : ℕ)
  | extract (p : P) (f : FPtr) (d : Side) (controllen : BitVec 64)
  deriving DecidableEq

def Call.files : Call P → List FPtr
  | .push f _ _ files _ => f :: files
  | .write f _ _ => [f]
  | .lock _ f _ _ => [f]
  | .wait _ f _ _ => [f]
  | .iov _ f _ _ _ _ => [f]
  | .advance _ f _ _ _ _ _ _ => [f]
  | .extract _ f _ _ => [f]

/-- What one `sys_sendmsg` did with its descriptors. -/
structure Sent where
  named : List FPtr
  queued : List FPtr
  deriving DecidableEq

/-- A `sys_recvmsg` with data: the descriptors that were there, those that fit its control buffer,
and those installed. -/
structure Received where
  pending : ℕ
  fit : ℕ
  installed : ℕ
  deriving DecidableEq

/-- The descriptor tables, the references to files, the two ends, the calls, and the history of each
end as a receiver. -/
structure State (P : Type) where
  fds : P × Fin maxFiles → Option FPtr
  /-- assumed below `2 ^ 32` -/
  refs : FPtr → ℕ
  sockFile : Side → FPtr
  sock : Side → Sock
  calls : List (Call P)
  sent : Side → List Sent
  received : Side → List Received
  delivered : Side → List FPtr

inductive Event (P : Type) where
  /-- `msg` is null where `copy_from_user` fails -/
  | sendmsg (p : P) (fd : ℤ) (msg : Option SendMsg)
  | recvmsg (p : P) (fd : ℤ) (msg : Option RecvMsg)
  /-- the next section of a call; a signal is pending -/
  | resume (i : ℕ) (signal : Bool)
  | close (p : P) (fd : ℤ)
  | sockClose (d : Side)

def fdsCnt (len : BitVec 64) : ℤ := (((len - sizeofCmsghdr) / 4).setWidth 32).toInt

def carried (len : BitVec 64) : ℕ := (len.toNat - 16) / 4

/-- The descriptors that have room in a control buffer. -/
def fit (controllen : BitVec 64) : ℕ := (controllen.toNat - 16) / 4

def maxToPass (controllen : BitVec 64) : ℤ :=
  let n := (((controllen - sizeofCmsghdr) / 4).setWidth 32).toInt
  let n := if n > 64 then 64 else n
  if n > 1 then 1 else n

/-- The loop of `sys_sendmsg` over `local_files`: those queued and those given back. -/
def pushFiles : Passed → List FPtr → Passed × List FPtr × List FPtr
  | r, [] => (r, [], [])
  | r, f :: fs =>
    if r.full then
      let (r, queued, closed) := pushFiles r fs
      (r, queued, f :: closed)
    else
      let (r, queued, closed) := pushFiles (r.store f) fs
      (r, f :: queued, closed)

/-- The loop that takes at most `k` files. -/
def popFiles : Passed → ℕ → List FPtr × Passed
  | r, 0 => ([], r)
  | r, k + 1 =>
    if r.head = r.tail then ([], r)
    else
      let (fs, r') := popFiles (r.advance 1) k
      (r.buf r.head :: fs, r')

namespace State
variable [DecidableEq P] {s : State P}

def slot (fd : ℤ) : Option (Fin maxFiles) :=
  if h : 0 ≤ fd ∧ fd < 256 then some ⟨fd.toNat, by unfold maxFiles; omega⟩ else none

section
variable (s : State P)

/-- The file `fdget` finds. -/
def lookup (p : P) (fd : ℤ) : Option FPtr :=
  match slot fd with
  | none => none
  | some i =>
    match s.fds (p, i) with
    | none => none
    | some f => if s.refs f = 0 then none else some f

def fileRefs (fs : List FPtr) : State P :=
  { s with refs := RefCount.incrAll s.refs fs }

/-- `file_close` of each; a count stays at 0. -/
def fileCloses (fs : List FPtr) : Option (State P) :=
  (RefCount.decrAll s.refs fs).map fun refs => { s with refs := refs }

def setSock (d : Side) (f : Sock → Sock) : State P :=
  { s with sock := update s.sock d (f (s.sock d)) }

def addCall (c : Call P) : State P := { s with calls := s.calls ++ [c] }

def setCall (i : ℕ) (c : Call P) : State P := { s with calls := s.calls.set i c }

def endCall (i : ℕ) (f : FPtr) : Option (State P) :=
  { s with calls := s.calls.eraseIdx i }.fileCloses [f]

end

/-- `proc_alloc_fd` for each file, given back afterwards; those that got a descriptor. -/
def installFiles (p : P) : State P → List FPtr → Option (State P × List FPtr)
  | s, [] => some (s, [])
  | s, f :: fs =>
    match (List.finRange maxFiles).find? fun i => s.fds (p, i) = none with
    | none =>
      (s.fileCloses [f]).bind fun s => installFiles p s fs
    | some i =>
      ({ s.fileRefs [f] with fds := update s.fds (p, i) (some f) }.fileCloses [f]).bind
        fun s => (installFiles p s fs).map fun (s, installed) => (s, f :: installed)

variable (s : State P)

def sideOf (f : FPtr) : Option Side :=
  if f = s.sockFile false then some false
  else if f = s.sockFile true then some true
  else none

/-- The control message that `sys_sendmsg` reads. -/
def rights (m : SendMsg) : Option (Cmsghdr × Control) :=
  match m.control with
  | none => none
  | some c =>
    if sizeofCmsghdr ≤ c.controllen then
      match c.hdr with
      | none => none
      | some h => if h.level = solSocket ∧ h.type = scmRights then some (h, c) else none
    else none

/-- The files of the descriptors below `n`. -/
def filesOf (p : P) (c : Control) (n : ℕ) : List FPtr :=
  ((List.range n).filterMap c.fds).filterMap (s.lookup p)

/-- `sys_sendmsg` from the check of the peer to its lock. -/
def startSend (p : P) (f : FPtr) (d : Side) (m : SendMsg) : Option (State P) :=
  if ¬(s.sock d).live then none
  else if ¬(s.sock d).connected ∨ ¬(s.sock (!d)).connected then s.fileCloses [f]
  else
    match rights m with
    | none => some (s.addCall (.write f (!d) m.iov))
    | some (h, c) =>
      let files := s.filesOf p c (min (fdsCnt h.len).toNat 64)
      some ((s.fileRefs files).addCall
        (.push f (!d) (s.filesOf p c (carried h.len)) files m.iov))

/-- The section of `sys_sendmsg` that queues the files. -/
def push (i : ℕ) (f : FPtr) (peer : Side) (named files : List FPtr)
    (iov : List SendVec) : Option (State P) :=
  if ¬(s.sock peer).live then none
  else
    let (r, queued, closed) := pushFiles (s.sock peer).passed files
    { (s.setSock peer fun k => { k with passed := r }).setCall i (.write f peer iov) with
      sent := update s.sent peer (s.sent peer ++ [Sent.mk named queued]) }.fileCloses closed

/-- The section of `sys_sendmsg` for the next byte. -/
def write (s : State P) (i : ℕ) (f : FPtr) (peer : Side) : List SendVec → Option (State P)
  | [] => if ¬(s.sock peer).live then none else s.endCall i f
  | .fault :: _ => s.endCall i f
  | .bytes [] :: iov => some (s.setCall i (.write f peer iov))
  | .bytes (none :: _) :: _ => s.endCall i f
  | .bytes (some b :: bs) :: iov =>
    if ¬(s.sock peer).live then none
    else if ¬(s.sock peer).connected then s.endCall i f
    else if (s.sock peer).buf.full then some s
    else
      some ((s.setSock peer fun k => { k with buf := k.buf.store b }).setCall i
        (.write f peer (.bytes bs :: iov)))

/-- The first section of `sys_recvmsg`. -/
def lock (i : ℕ) (p : P) (f : FPtr) (d : Side) (m : RecvMsg) : Option (State P) :=
  let k := s.sock d
  if ¬k.live then none
  else if k.buf.head = k.buf.tail then
    if k.connected then some (s.setCall i (.wait p f d m)) else s.endCall i f
  else some (s.setCall i (.iov p f d m.control m.iov 0))

def wait (i : ℕ) (p : P) (f : FPtr) (d : Side) (m : RecvMsg) (signal : Bool) : Option (State P) :=
  let k := s.sock d
  if ¬k.live then none
  else if k.buf.head = k.buf.tail ∧ k.connected then if signal then s.endCall i f else some s
  else some (s.setCall i (.iov p f d m.control m.iov 0))

def endIov (i : ℕ) (p : P) (f : FPtr) (d : Side) (total : ℕ) : Option (BitVec 64) → Option (State P)
  | none => s.endCall i f
  | some controllen =>
    if 0 < total ∧ sizeofCmsghdr ≤ controllen then some (s.setCall i (.extract p f d controllen))
    else s.endCall i f

/-- The section of `sys_recvmsg` for the next `iovec`. -/
def iov (s : State P) (i : ℕ) (p : P) (f : FPtr) (d : Side) (control : Option (BitVec 64))
    (total : ℕ) : List RecvVec → Option (State P)
  | [] => s.endIov i p f d total control
  | .fault :: _ => s.endCall i f
  | .vec len nomem bad :: rest =>
    if len = 0 then some (s.setCall i (.iov p f d control rest total))
    else if ¬(s.sock d).live then none
    else
      let n := avail (s.sock d).buf len
      if n = 0 then some (s.setCall i (.iov p f d control [] total))
      else if nomem ∨ bad then s.endCall i f
      else some (s.setCall i (.advance p f d control rest total n len))

def advance (s : State P) (i : ℕ) (p : P) (f : FPtr) (d : Side) (control : Option (BitVec 64))
    (rest : List RecvVec) (total n len : ℕ) : Option (State P) :=
  if ¬(s.sock d).live then none
  else
    some ((s.setSock d fun k => { k with buf := k.buf.advance n }).setCall i
      (.iov p f d control (if n < len then [] else rest) (total + n)))

/-- The end of `sys_recvmsg`: files from the ring get descriptors. -/
def extract (i : ℕ) (p : P) (f : FPtr) (d : Side) (controllen : BitVec 64) : Option (State P) :=
  if ¬(s.sock d).live then none
  else
    let (files, r) := popFiles (s.sock d).passed (maxToPass controllen).toNat
    (installFiles p (s.setSock d fun k => { k with passed := r }) files).bind fun (t, installed) =>
      { t with
        delivered := update s.delivered d (s.delivered d ++ installed)
        received := update s.received d
          (s.received d ++
            [Received.mk (s.sock d).passed.count (fit controllen) installed.length]) }.endCall i f

/-- `sock_close` takes the pair apart; `sock_free` gives back the ring's files. -/
def sockClose (d : Side) : Option (State P) :=
  let files := (popFiles (s.sock d).passed unixSocketMaxPassedFds).1
  ((s.setSock d fun k => { k with live := false, connected := false }).setSock (!d) fun k =>
    { k with connected := false }).fileCloses files

def resume (i : ℕ) (signal : Bool) : Call P → Option (State P)
  | .push f peer named files iov => s.push i f peer named files iov
  | .write f peer iov => s.write i f peer iov
  | .lock p f d m => s.lock i p f d m
  | .wait p f d m => s.wait i p f d m signal
  | .iov p f d control iov total => s.iov i p f d control total iov
  | .advance p f d control rest total n len => s.advance i p f d control rest total n len
  | .extract p f d controllen => s.extract i p f d controllen

/-- One section; none where it is not possible or freed memory is read. -/
def step : Event P → Option (State P)
  | .sendmsg p fd msg =>
    match s.lookup p fd with
    | none => some s
    | some f =>
      match s.sideOf f, msg with
      | some d, some m => (s.fileRefs [f]).startSend p f d m
      | _, _ => (s.fileRefs [f]).fileCloses [f]
  | .recvmsg p fd msg =>
    match s.lookup p fd with
    | none => some s
    | some f =>
      match s.sideOf f, msg with
      | some d, some m => some ((s.fileRefs [f]).addCall (.lock p f d m))
      | _, _ => (s.fileRefs [f]).fileCloses [f]
  | .resume i signal =>
    match s.calls[i]? with
    | none => none
    | some c => s.resume i signal c
  | .close p fd =>
    match slot fd with
    | none => some s
    | some j =>
      match s.fds (p, j) with
      | none => some s
      | some f => { s with fds := update s.fds (p, j) none }.fileCloses [f]
  | .sockClose d =>
    if (s.sock d).live ∧ s.refs (s.sockFile d) = 0 then s.sockClose d else none

end State
end ScmRights
end Doppio
