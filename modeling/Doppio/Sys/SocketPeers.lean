import Doppio.Library.RingBuffer
import Doppio.Library.Run

/-! Pairs of connected sockets (`kernel/sys/sys_socket.c`): `sys_socket`, `sys_socketpair`,
`sys_bind`, `sys_listen`, `sys_connect`, `sys_accept` and `sock_close`, one step for each section
under a lock. A call holds a reference to its file from `fdget` to `fdput`, so `sock_close` starts
when no call works on the socket. -/
namespace Doppio
open Function
namespace SocketPeers

abbrev SPtr := ℕ

inductive SockState where
  | closed
  | bound
  | listening
  | connected
  | disconnected
  deriving DecidableEq

def unixSocketMaxBacklog : ℕ := 16

instance : NeZero unixSocketMaxBacklog := ⟨by decide⟩

/-- The fields of `struct unix_socket` that make connections. -/
structure UnixSocket where
  /-- the memory is a socket -/
  live : Bool
  state : SockState
  path : List (BitVec 8)
  peer : Option SPtr
  backlog : GapRing unixSocketMaxBacklog SPtr

def UnixSocket.new : UnixSocket := ⟨true, .closed, [], none, ⟨fun _ => 0, 0, 0⟩⟩

def maxBoundSockets : ℕ := 64

/-- A call between two of its sections, with its local variables. -/
inductive Call where
  /-- `sys_bind` before the lock of `bound_sockets` -/
  | bind (s : SPtr)
  /-- `sys_connect` before the lock of its server -/
  | enqueue (s server : SPtr)
  /-- `sys_connect` in its loop -/
  | wait (s : SPtr)
  /-- `sys_accept` with its client -/
  | link (s client : SPtr)
  deriving DecidableEq

def Call.sock : Call → SPtr
  | .bind s => s
  | .enqueue s _ => s
  | .wait s => s
  | .link s _ => s

inductive CloseStage where
  /-- the lock of the peer that was read -/
  | unlink (peer : Option SPtr)
  | unbind
  /-- `sock_free` -/
  | free
  deriving DecidableEq

structure Net where
  sock : SPtr → UnixSocket
  boundSockets : Fin maxBoundSockets → Option SPtr
  calls : List Call
  closing : SPtr → Option CloseStage

def Net.init : Net :=
  ⟨fun _ => { UnixSocket.new with live := false }, fun _ => none, [], fun _ => none⟩

inductive Event where
  | socket (a : SPtr)
  | socketpair (a b : SPtr)
  | bind (s : SPtr) (path : List (BitVec 8))
  | listen (s : SPtr)
  | connect (s : SPtr) (path : List (BitVec 8))
  | accept (s : SPtr)
  | close (s : SPtr)
  /-- a call in `calls`; `mem` is what `sock_alloc` gets -/
  | resume (i : ℕ) (mem : Option SPtr)
  | resumeClose (s : SPtr)
  deriving DecidableEq

namespace Net

variable (n : Net)

variable (s : SPtr)

def setSock (f : UnixSocket → UnixSocket) : Net :=
  { n with sock := update n.sock s (f (n.sock s)) }

/-- The socket's memory is in use and `sock_close` has not begun. -/
def Open : Prop := (n.sock s).live = true ∧ n.closing s = none

instance : Decidable (n.Open s) := instDecidableAnd

def addCall (c : Call) : Net := { n with calls := n.calls ++ [c] }

def dropCall (i : ℕ) : Net := { n with calls := n.calls.eraseIdx i }

def sockAlloc (a : SPtr) : Net := n.setSock a fun _ => UnixSocket.new

def linkPair (a b : SPtr) : Net :=
  (n.setSock a fun k => { k with peer := some b, state := .connected }).setSock b fun k =>
    { k with peer := some a, state := .connected }

def findBound (p : Option SPtr → Bool) : Option (Fin maxBoundSockets) :=
  (List.finRange maxBoundSockets).find? fun i => p (n.boundSockets i)

/-- The loop over `bound_sockets` that compares paths. -/
def scanPath (n : Net) (path : List (BitVec 8)) :
    List (Fin maxBoundSockets) → Option (Option (Fin maxBoundSockets))
  | [] => some none
  | i :: rest =>
    match n.boundSockets i with
    | none => scanPath n path rest
    | some v =>
      if ¬(n.sock v).live then none
      else if (n.sock v).path = path then some (some i)
      else scanPath n path rest

/-- The second section of `sys_bind`. -/
def bindTable : Option Net :=
  match n.scanPath (n.sock s).path (List.finRange maxBoundSockets) with
  | none => none
  | some (some _) => some n
  | some none =>
    match n.findBound (· = none) with
    | none => some n
    | some slot => some { n with boundSockets := update n.boundSockets slot (some s) }

/-- `sys_connect` under the lock of `bound_sockets`. -/
def findServer (path : List (BitVec 8)) : Option Net :=
  match n.scanPath path (List.finRange maxBoundSockets) with
  | none => none
  | some none => some n
  | some (some i) =>
    match n.boundSockets i with
    | none => some n
    | some server => some (n.addCall (.enqueue s server))

/-- `sys_connect` under the lock of the server. -/
def enqueue (i : ℕ) (s server : SPtr) : Option Net :=
  let k := n.sock server
  if ¬k.live then none
  else if k.state ≠ .listening ∨ k.backlog.full then some (n.dropCall i)
  else
    some (((n.setSock server fun k => { k with backlog := k.backlog.store s }).dropCall i).addCall
      (.wait s))

/-- One turn of the loop of `sys_connect`. -/
def wait (i : ℕ) (s : SPtr) : Net :=
  if (n.sock s).state = .connected ∨ (n.sock s).state = .disconnected then n.dropCall i else n

/-- `sys_accept` connects the client with a new socket. -/
def link (i : ℕ) (client : SPtr) : Option SPtr → Option Net
  | none => some (n.dropCall i)
  | some a =>
    if (n.sock a).live ∨ ¬(n.sock client).live then none
    else some (((n.dropCall i).sockAlloc a).linkPair a client)

/-- `sock_close` under the lock of the peer. -/
def closePeer : Option SPtr → Option Net
  | none => some n
  | some t =>
    if ¬(n.sock t).live then none
    else if (n.sock t).peer = some s then
      some (n.setSock t fun k => { k with peer := none, state := .disconnected })
    else some n

/-- The loop of `sock_close` over `bound_sockets`. -/
def closeTable : Net :=
  match n.findBound (· = some s) with
  | some i => { n with boundSockets := update n.boundSockets i none }
  | none => n

def sockFree : Option Net :=
  match (n.sock s).peer with
  | none => some (n.setSock s fun k => { k with live := false })
  | some t =>
    if ¬(n.sock t).live then none
    else
      some ((n.setSock t fun k => { k with peer := none, state := .disconnected }).setSock s fun k =>
        { k with peer := none, live := false })

def setClosing (stage : Option CloseStage) : Net :=
  { n with closing := update n.closing s stage }

def resumeClose : Option Net :=
  match n.closing s with
  | none => none
  | some (.unlink p) => (n.closePeer s p).map fun n => n.setClosing s (some .unbind)
  | some .unbind => some ((n.closeTable s).setClosing s (some .free))
  | some .free => (n.sockFree s).map fun n => n.setClosing s none

def Busy : Prop := ∃ c ∈ n.calls, c.sock = s

instance : Decidable (n.Busy s) :=
  inferInstanceAs (Decidable (∃ c ∈ n.calls, _))

end Net

/-- One section; none where it is not possible or memory is no socket. -/
def step (n : Net) : Event → Option Net
  | .socket a => if (n.sock a).live then none else some (n.sockAlloc a)
  | .socketpair a b =>
    if (n.sock a).live ∨ (n.sock b).live ∨ a = b then none
    else some (((n.sockAlloc a).sockAlloc b).linkPair a b)
  | .bind s path =>
    if ¬n.Open s then none
    else if (n.sock s).state ≠ .closed then some n
    else some ((n.setSock s fun k => { k with path := path.take 107, state := .bound }).addCall
      (.bind s))
  | .listen s =>
    if ¬n.Open s then none
    else if (n.sock s).state ≠ .bound then some n
    else
      some (n.setSock s fun k =>
        { k with state := .listening, backlog := { k.backlog with head := 0, tail := 0 } })
  | .connect s path =>
    if ¬n.Open s then none
    else n.findServer s path
  | .accept s =>
    if ¬n.Open s then none
    else
      let k := n.sock s
      if k.state ≠ .listening ∨ k.backlog.head = k.backlog.tail then some n
      else
        some ((n.setSock s fun k => { k with backlog := k.backlog.advance 1 }).addCall
          (.link s (k.backlog.buf k.backlog.head)))
  | .close s =>
    if ¬n.Open s ∨ n.Busy s then none
    else
      some ((n.setSock s fun k => { k with state := .disconnected, peer := none }).setClosing s
        (some (.unlink (n.sock s).peer)))
  | .resume i mem =>
    match n.calls[i]? with
    | none => none
    | some (.bind s) => (n.bindTable s).map fun n => n.dropCall i
    | some (.enqueue s server) => n.enqueue i s server
    | some (.wait s) => some (n.wait i s)
    | some (.link _ client) => n.link i client mem
  | .resumeClose s => n.resumeClose s

end SocketPeers
end Doppio
