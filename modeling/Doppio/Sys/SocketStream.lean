import Doppio.Kernel.Errno
import Doppio.Library.RingBuffer
import Doppio.Library.Run

/-! The bytes that one end of a pair of sockets sends to the other (`kernel/sys/sys_socket.c`), one
step for each section under the lock of the receiver. One thread sends, one receives; user copies
succeed. -/
namespace Doppio
open List Nat

namespace SocketStream

def unixSocketBufSize : ℕ := 65536

instance : NeZero unixSocketBufSize := ⟨by decide⟩

/-- `buf`, `buf_head` and `buf_tail` of the receiving socket. -/
abbrev SockBuf := GapRing unixSocketBufSize (BitVec 8)

/-- A receive through `sock_read_internal` in pieces of 4096 bytes. -/
structure ChunkCall where
  /-- `sys_read`; otherwise `sys_recvfrom` -/
  viaRead : Bool
  nonblock : Bool
  len : ℕ
  deriving DecidableEq

/-- `to_copy` of `sys_read`, `to_read` of `sys_recvfrom`. -/
def ChunkCall.toRead (c : ChunkCall) (total : ℕ) : ℕ := min (c.len - total) 4096

/-- `total` bytes of the receiver's call are through. -/
inductive ReaderPc where
  | idle
  /-- before the first `spin_lock` of `sock_read_internal` -/
  | chunkLock (c : ChunkCall) (total : ℕ)
  /-- in `wait_event_interruptible` -/
  | chunkWait (c : ChunkCall) (total : ℕ)
  | chunkRelock (c : ChunkCall) (total : ℕ)
  /-- after the `spin_unlock`: `copy_to_user`, the head advances -/
  | chunkAdvance (c : ChunkCall) (total : ℕ) (chunk : List (BitVec 8))
  /-- before the first `spin_lock` of `sys_recvmsg` -/
  | msgLock (lens : List ℕ)
  | msgWait (lens : List ℕ)
  | msgRelock (lens : List ℕ)
  /-- before the next `iovec`; the call asked for `asked` bytes -/
  | msgIov (asked : ℕ) (lens : List ℕ) (total : ℕ)
  | msgAdvance (asked len : ℕ) (lens : List ℕ) (total : ℕ) (chunk : List (BitVec 8))

/-- `count` bytes are in the ring. -/
def ReaderPc.Enough (count : ℕ) (nomem : Bool) : ReaderPc → Prop
  | .chunkLock c total =>
    if count = 0 then c.nonblock = true ∨ total = 0 else c.toRead total ≤ count
  | .chunkRelock c total => count = 0 ∨ c.toRead total ≤ count
  | .msgIov _ (len :: _) _ => (count = 0 ∨ len ≤ count) ∧ nomem = false
  | _ => True

instance (count : ℕ) (nomem : Bool) : DecidablePred (ReaderPc.Enough count nomem)
  | .chunkLock _ _ => inferInstanceAs (Decidable (if count = 0 then _ else _))
  | .chunkRelock c total => inferInstanceAs (Decidable (count = 0 ∨ c.toRead total ≤ count))
  | .msgIov _ (len :: _) _ =>
    inferInstanceAs (Decidable ((count = 0 ∨ len ≤ count) ∧ nomem = false))
  | .msgIov _ [] _ => isTrue trivial
  | .idle => isTrue trivial
  | .chunkWait _ _ => isTrue trivial
  | .chunkAdvance _ _ _ => isTrue trivial
  | .msgLock _ => isTrue trivial
  | .msgWait _ => isTrue trivial
  | .msgRelock _ => isTrue trivial
  | .msgAdvance _ _ _ _ _ => isTrue trivial

/-- The sender, with the bytes still to store. -/
inductive WriterPc where
  | idle
  /-- before a `spin_lock` of `sock_write` -/
  | write (rest : List (BitVec 8))
  /-- before the `spin_lock` for the next byte -/
  | msg (rest : List (BitVec 8))

def WriterPc.rest : WriterPc → List (BitVec 8)
  | .idle => []
  | .write rest => rest
  | .msg rest => rest

/-- The receiving socket, the threads and the history: the bytes sent, stored and received. Each
finished receive leaves the bytes it asked for, those sent and not received before it, and its
result. -/
structure System where
  ring : SockBuf
  connected : Bool
  reader : ReaderPc
  writer : WriterPc
  offered : List (BitVec 8)
  sent : List (BitVec 8)
  received : List (BitVec 8)
  log : List (ℕ × ℕ × ℤ)

inductive Event where
  | recv (c : ChunkCall)
  /-- `sys_recvmsg` with the lengths of its vector -/
  | recvmsg (lens : List ℕ)
  | sockWrite (data : List (BitVec 8))
  | sendmsg (iov : List (List (BitVec 8)))
  /-- the receiver's next section; a signal is pending, `kmalloc` returns null -/
  | runReader (signal nomem : Bool)
  | runWriter

/-- The loop that counts up `avail`. -/
def availLoop (r : SockBuf) (n : ℕ) : ℕ → ℕ → ℕ
  | 0, avail => avail
  | fuel + 1, avail =>
    if avail < n ∧ avail < unixSocketBufSize ∧ r.head ≠ r.tail then availLoop r n fuel (avail + 1)
    else avail

def avail (r : SockBuf) (n : ℕ) : ℕ := availLoop r n n 0

/-- The loop of `sock_write` up to `thread_yield`: the bytes stored and left. -/
def storeLoop : SockBuf → List (BitVec 8) → SockBuf × List (BitVec 8) × List (BitVec 8)
  | r, [] => (r, [], [])
  | r, b :: bs =>
    if r.full then (r, [], b :: bs)
    else
      let (r, stored, rest) := storeLoop (r.store b) bs
      (r, b :: stored, rest)

namespace System

variable (s : System)

def finish (asked total : ℕ) (ret : ℤ) : System :=
  { s with
    reader := .idle
    log := s.log ++ [(asked, s.sent.length - (s.received.length - total), ret)] }

/-- The loop test of `sys_read` and `sys_recvfrom`. -/
def chunkTurn (c : ChunkCall) (total : ℕ) : System :=
  if total < c.len then { s with reader := .chunkLock c total } else s.finish c.len total total

/-- `sock_read_internal` has returned an error or 0. -/
def chunkFailed (c : ChunkCall) (total : ℕ) (ret : ℤ) : System :=
  if ret < 0 then s.finish c.len total (if 0 < total then total else ret)
  else s.finish c.len total total

/-- `sock_read_internal` from `avail` to the `spin_unlock`. -/
def chunkCopy (c : ChunkCall) (total : ℕ) : System :=
  let n := avail s.ring (c.toRead total)
  if n = 0 then s.chunkFailed c total 0
  else { s with reader := .chunkAdvance c total (s.ring.peek n) }

/-- A received piece: the copy to the user and the advance of the head. -/
def take (chunk : List (BitVec 8)) : System :=
  { s with ring := s.ring.advance chunk.length, received := s.received ++ chunk }

/-- The section of `sys_recvmsg` for one `iovec`. -/
def msgCopy (asked len : ℕ) (lens : List ℕ) (total : ℕ) (nomem : Bool) : System :=
  let n := avail s.ring len
  if 0 < n then
    if nomem then s.finish asked total (-eNOMEM)
    else { s with reader := .msgAdvance asked len lens total (s.ring.peek n) }
  else s.finish asked total total

def runReader (signal nomem : Bool) : Option System :=
  match s.reader with
  | .idle => none
  | .chunkLock c total =>
    if s.ring.head = s.ring.tail then
      if ¬s.connected then some (s.chunkFailed c total 0)
      else if c.nonblock then some (s.chunkFailed c total (-eAGAIN))
      else some { s with reader := .chunkWait c total }
    else some (s.chunkCopy c total)
  | .chunkWait c total =>
    if s.ring.head ≠ s.ring.tail ∨ ¬s.connected then some { s with reader := .chunkRelock c total }
    else if signal then some (s.chunkFailed c total (-eINTR))
    else some s
  | .chunkRelock c total =>
    if s.ring.head = s.ring.tail then some (s.chunkFailed c total 0)
    else some (s.chunkCopy c total)
  | .chunkAdvance c total chunk =>
    let s := s.take chunk
    if ¬c.viaRead ∧ chunk.length < c.toRead total then
      some (s.finish c.len (total + chunk.length) (total + chunk.length : ℕ))
    else some (s.chunkTurn c (total + chunk.length))
  | .msgLock lens =>
    if s.ring.head = s.ring.tail then
      if s.connected then some { s with reader := .msgWait lens }
      else some (s.finish lens.sum 0 0)
    else some { s with reader := .msgIov lens.sum lens 0 }
  | .msgWait lens =>
    if s.ring.head ≠ s.ring.tail ∨ ¬s.connected then some { s with reader := .msgRelock lens }
    else if signal then some (s.finish lens.sum 0 (-eINTR))
    else some s
  | .msgRelock lens =>
    if s.ring.head = s.ring.tail ∧ s.connected then some { s with reader := .msgWait lens }
    else some { s with reader := .msgIov lens.sum lens 0 }
  | .msgIov asked [] total => some (s.finish asked total total)
  | .msgIov asked (len :: lens) total =>
    if len = 0 then some { s with reader := .msgIov asked lens total }
    else some (s.msgCopy asked len lens total nomem)
  | .msgAdvance asked len lens total chunk =>
    let s := s.take chunk
    if chunk.length < len then
      some (s.finish asked (total + chunk.length) (total + chunk.length : ℕ))
    else some { s with reader := .msgIov asked lens (total + chunk.length) }

def runWriter : Option System :=
  match s.writer with
  | .idle => none
  | .write rest =>
    if s.connected then
      let (r, stored, rest) := storeLoop s.ring rest
      some { s with
        ring := r
        sent := s.sent ++ stored
        writer := if rest = [] then .idle else .write rest }
    else some { s with writer := .idle }
  | .msg [] => some { s with writer := .idle }
  | .msg (b :: bs) =>
    if ¬s.connected then some { s with writer := .idle }
    else if s.ring.full then some s
    else some { s with ring := s.ring.store b, sent := s.sent ++ [b], writer := .msg bs }

def step : Event → Option System
  | .recv c =>
    match s.reader with
    | .idle => some (s.chunkTurn c 0)
    | _ => none
  | .recvmsg lens =>
    match s.reader with
    | .idle => some { s with reader := .msgLock lens }
    | _ => none
  | .sockWrite data =>
    match s.writer with
    | .idle =>
      let data := data.take unixSocketBufSize
      some { s with writer := .write data, offered := s.offered ++ data }
    | _ => none
  | .sendmsg iov =>
    match s.writer with
    | .idle => some { s with writer := .msg iov.flatten, offered := s.offered ++ iov.flatten }
    | _ => none
  | .runReader signal nomem => s.runReader signal nomem
  | .runWriter => s.runWriter

def Next (e : Event) (s' : System) : Prop := s.step e = some s'

/-- A connected pair with an empty ring. -/
def start (buf : ℕ → BitVec 8) (i : Fin unixSocketBufSize) : System :=
  ⟨⟨buf, i, i⟩, true, .idle, .idle, [], [], [], []⟩

/-- A section that finds bytes asks for at most those; one that finds none does not sleep in the
middle of its call, and has memory for the piece. -/
def Enough (s : System) : Event → Prop
  | .runReader _ nomem => s.reader.Enough s.ring.count nomem
  | _ => True

instance : DecidablePred s.Enough
  | .recv _ => isTrue trivial
  | .recvmsg _ => isTrue trivial
  | .sockWrite _ => isTrue trivial
  | .sendmsg _ => isTrue trivial
  | .runReader _ nomem => inferInstanceAs (Decidable (s.reader.Enough s.ring.count nomem))
  | .runWriter => isTrue trivial

end System

variable {r : SockBuf}

theorem availLoop_of_ne (hne : r.head ≠ r.tail) (n fuel a : ℕ) :
    availLoop r n fuel a = max a (min (min n unixSocketBufSize) (a + fuel)) := by
  induction fuel generalizing a with
  | zero =>
    unfold availLoop
    omega
  | succ fuel ih =>
    unfold availLoop
    split_ifs with hc
    · rw [ih]
      omega
    · omega

/-- The head does not move while `avail` is counted, so the count does not depend on the bytes in
the ring. -/
theorem avail_of_ne (hne : r.head ≠ r.tail) (n : ℕ) :
    avail r n = min n unixSocketBufSize := by
  rw [avail, availLoop_of_ne hne]
  omega

theorem avail_of_eq (heq : r.head = r.tail) (n : ℕ) : avail r n = 0 := by
  cases n with
  | zero => rfl
  | succ n => exact if_neg fun hc => hc.2.2 heq

theorem storeLoop_spec (h : r.Valid) (bs : List (BitVec 8)) :
    (storeLoop r bs).1.Valid ∧ (storeLoop r bs).1.contents = r.contents ++ (storeLoop r bs).2.1 ∧
      (storeLoop r bs).2.1 ++ (storeLoop r bs).2.2 = bs := by
  induction bs generalizing r with
  | nil => exact ⟨h, (append_nil _).symm, rfl⟩
  | cons b bs ih =>
    unfold storeLoop
    split_ifs with hfull
    · exact ⟨h, (append_nil _).symm, rfl⟩
    · obtain ⟨hvalid, hcontents, hrest⟩ := ih (h.store b)
      rw [GapRing.contents_store h hfull, append_assoc] at hcontents
      exact ⟨hvalid, hcontents, congrArg (b :: ·) hrest⟩

/-- What the receiver's place says about the ring and the bytes received. -/
def ReaderPc.Fits (contents : List (BitVec 8)) (received : ℕ) : ReaderPc → Prop
  | .chunkLock c total => total < c.len ∧ total ≤ received
  | .chunkWait c total => 0 < c.len ∧ total = 0
  | .chunkRelock c total => 0 < c.len ∧ total = 0
  | .chunkAdvance c total chunk =>
    total < c.len ∧ total ≤ received ∧ chunk.length = c.toRead total ∧ chunk <+: contents
  | .msgIov asked lens total => total + lens.sum = asked ∧ total ≤ received
  | .msgAdvance asked len lens total chunk =>
    total + len + lens.sum = asked ∧ total ≤ received ∧ chunk.length = len ∧ chunk <+: contents
  | _ => True

theorem ReaderPc.Fits.append {pc : ReaderPc} {contents : List (BitVec 8)} {received : ℕ}
    (h : pc.Fits contents received) (bs : List (BitVec 8)) :
    pc.Fits (contents ++ bs) received := by
  cases pc with
  | chunkAdvance c total chunk =>
    exact ⟨h.1, h.2.1, h.2.2.1, h.2.2.2.trans (prefix_append _ _)⟩
  | msgAdvance asked len lens total chunk =>
    exact ⟨h.1, h.2.1, h.2.2.1, h.2.2.2.trans (prefix_append _ _)⟩
  | _ => exact h

namespace System

/-- The ring holds what is sent and not received; a receive that found a byte returned the smaller
of what it asked for and what there was. -/
structure Stream (s : System) : Prop where
  valid : s.ring.Valid
  connected : s.connected = true
  history : s.sent = s.received ++ s.ring.contents
  offered : s.sent ++ s.writer.rest = s.offered
  reader : s.reader.Fits s.ring.contents s.received.length
  log : ∀ e ∈ s.log, 0 < e.2.1 → e.2.2 = (min e.1 e.2.1 : ℕ)

variable {s s' : System}

theorem start_stream (buf : ℕ → BitVec 8) (i : Fin unixSocketBufSize) : (start buf i).Stream where
  valid := ⟨i.2, i.2⟩
  connected := rfl
  history := by
    have hvalid : (⟨buf, i, i⟩ : SockBuf).Valid := ⟨i.2, i.2⟩
    have hnil : (⟨buf, i, i⟩ : SockBuf).contents = [] := by
      rw [← length_eq_zero_iff, GapRing.length_contents, GapRing.count_eq_zero_iff hvalid]
    show [] = [] ++ (⟨buf, i, i⟩ : SockBuf).contents
    rw [hnil, append_nil]
  offered := rfl
  reader := trivial
  log := by simp [start]

section
variable (h : s.Stream)
include h

theorem Stream.goto {pc : ReaderPc}
    (hpc : pc.Fits s.ring.contents s.received.length) : Stream { s with reader := pc } :=
  { h with reader := hpc }

variable {total : ℕ}

theorem Stream.finish {asked : ℕ} {ret : ℤ} (htotal : total ≤ s.received.length)
    (hret : 0 < s.ring.count + total →
      ret = total ∧ total ≤ asked ∧ (total = asked ∨ s.ring.count = 0)) :
    (s.finish asked total ret).Stream := by
  refine { h with reader := trivial, log := ?_ }
  intro e he hpos
  rcases List.mem_append.mp he with he | he
  · exact h.log e he hpos
  · have hsent : s.sent.length = s.received.length + s.ring.count := by
      rw [h.history, length_append, GapRing.length_contents]
    have havail : s.sent.length - (s.received.length - total) = s.ring.count + total := by omega
    rw [mem_singleton] at he
    subst he
    simp only [havail] at hpos ⊢
    omega

variable {c : ChunkCall}

theorem Stream.chunkTurn (hle : total ≤ c.len)
    (htotal : total ≤ s.received.length) : (s.chunkTurn c total).Stream := by
  unfold System.chunkTurn
  split_ifs with hlt
  · exact h.goto ⟨hlt, htotal⟩
  · exact h.finish htotal fun _ => ⟨rfl, hle, .inl (by omega)⟩

theorem Stream.chunkFailed {ret : ℤ}
    (hle : total ≤ c.len) (htotal : total ≤ s.received.length) (hempty : s.ring.count = 0) :
    (s.chunkFailed c total ret).Stream := by
  unfold System.chunkFailed
  split_ifs with hneg hpos
  · exact h.finish htotal fun _ => ⟨rfl, hle, .inr hempty⟩
  · exact h.finish htotal fun hp => absurd hp (by omega)
  · exact h.finish htotal fun _ => ⟨rfl, hle, .inr hempty⟩

theorem Stream.chunkCopy (hlt : total < c.len)
    (htotal : total ≤ s.received.length) (hne : s.ring.head ≠ s.ring.tail)
    (henough : c.toRead total ≤ s.ring.count) : (s.chunkCopy c total).Stream := by
  have hread : avail s.ring (c.toRead total) = c.toRead total := by
    rw [avail_of_ne hne]
    unfold ChunkCall.toRead unixSocketBufSize
    omega
  have hpos : c.toRead total ≠ 0 := by
    unfold ChunkCall.toRead
    omega
  unfold System.chunkCopy
  simp only [hread, if_neg hpos]
  refine h.goto ⟨hlt, htotal, GapRing.length_peek _, ?_⟩
  rw [GapRing.contents_eq_peek_append h.valid henough]
  exact prefix_append _ _

theorem Stream.take {chunk : List (BitVec 8)} (hchunk : chunk <+: s.ring.contents) :
    Stream { s.take chunk with reader := .idle } := by
  have hle : chunk.length ≤ s.ring.count := by
    rw [← GapRing.length_contents]
    exact hchunk.length_le
  have hsplit := GapRing.contents_eq_peek_append h.valid hle
  have hpeek : s.ring.peek chunk.length = chunk := by
    have hprefix : s.ring.peek chunk.length <+: s.ring.contents := by
      rw [hsplit]
      exact prefix_append _ _
    exact (prefix_of_prefix_length_le hprefix hchunk (GapRing.length_peek _).le).eq_of_length
      (GapRing.length_peek _)
  refine { h with valid := h.valid.advance _, history := ?_, reader := trivial }
  show s.sent = (s.received ++ chunk) ++ (s.ring.advance chunk.length).contents
  rw [h.history, hsplit, hpeek, append_assoc]

theorem Stream.msgCopy {asked len : ℕ} {lens : List ℕ} (hlen : len ≠ 0)
    (hasked : total + len + lens.sum = asked) (htotal : total ≤ s.received.length)
    (henough : s.ring.count = 0 ∨ len ≤ s.ring.count) :
    (s.msgCopy asked len lens total false).Stream := by
  unfold System.msgCopy
  by_cases heq : s.ring.head = s.ring.tail
  · have hempty := (GapRing.count_eq_zero_iff h.valid).mpr heq
    simp only [avail_of_eq heq]
    exact h.finish htotal fun _ => ⟨rfl, by omega, .inr hempty⟩
  · have hne : s.ring.count ≠ 0 := fun hc => heq ((GapRing.count_eq_zero_iff h.valid).mp hc)
    have hle : len ≤ s.ring.count := henough.resolve_left hne
    have hlt := GapRing.count_lt h.valid
    have havail : avail s.ring len = len := by
      rw [avail_of_ne heq]
      omega
    simp only [havail, if_pos (pos_of_ne_zero hlen)]
    refine h.goto ⟨hasked, htotal, GapRing.length_peek _, ?_⟩
    rw [GapRing.contents_eq_peek_append h.valid hle]
    exact prefix_append _ _

theorem Stream.runReader {signal nomem : Bool}
    (hok : s.Enough (.runReader signal nomem)) (hrun : s.runReader signal nomem = some s') :
    s'.Stream := by
  have hempty := GapRing.count_eq_zero_iff h.valid
  have hfits := h.reader
  unfold System.runReader at hrun
  unfold Enough ReaderPc.Enough at hok
  cases hpc : s.reader with
  | idle => simp [hpc] at hrun
  | chunkLock c total =>
    simp only [hpc] at hrun hok hfits
    obtain ⟨hlt, htotal⟩ := hfits
    by_cases heq : s.ring.head = s.ring.tail
    · have hz := hempty.mpr heq
      rw [if_neg (not_not.mpr h.connected)] at hrun
      rw [if_pos hz] at hok
      split_ifs at hrun with hnb <;> cases hrun
      · exact h.chunkFailed hlt.le htotal hz
      · have h0 : total = 0 := hok.resolve_left hnb
        exact h.goto (show (ReaderPc.chunkWait c total).Fits _ _ from ⟨by omega, h0⟩)
    · rw [if_neg heq] at hrun
      rw [if_neg fun hz => heq (hempty.mp hz)] at hok
      cases hrun
      exact h.chunkCopy hlt htotal heq hok
  | chunkWait c total =>
    simp only [hpc] at hrun hfits
    obtain ⟨hlen, h0⟩ := id hfits
    split_ifs at hrun with hwake hsig <;> cases hrun
    · exact h.goto hfits
    · have heq : s.ring.head = s.ring.tail := by
        by_contra hne
        exact hwake (.inl hne)
      exact h.chunkFailed (by omega) (by omega) (hempty.mpr heq)
    · exact h
  | chunkRelock c total =>
    simp only [hpc] at hrun hok hfits
    obtain ⟨hlen, h0⟩ := hfits
    split_ifs at hrun with heq <;> cases hrun
    · exact h.chunkFailed (by omega) (by omega) (hempty.mpr heq)
    · exact h.chunkCopy (by omega) (by omega) heq (hok.resolve_left fun hz => heq (hempty.mp hz))
  | chunkAdvance c total chunk =>
    simp only [hpc] at hrun hfits
    obtain ⟨hlt, htotal, hlen, hchunk⟩ := hfits
    rw [if_neg fun hc => absurd hc.2 (by omega)] at hrun
    cases hrun
    have hle : c.toRead total ≤ c.len - total := min_le_left _ _
    have hrec : total + chunk.length ≤ (s.received ++ chunk).length := by
      rw [length_append]
      omega
    exact (h.take hchunk).chunkTurn (by omega) hrec
  | msgLock lens =>
    simp only [hpc] at hrun
    rw [if_pos h.connected] at hrun
    split_ifs at hrun <;> cases hrun
    · exact h.goto trivial
    · exact h.goto ⟨zero_add _, zero_le _⟩
  | msgWait lens =>
    simp only [hpc] at hrun
    split_ifs at hrun with hwake hsig <;> cases hrun
    · exact h.goto trivial
    · exact h.finish (zero_le _) fun hp => absurd hp (by omega)
    · exact h
  | msgRelock lens =>
    simp only [hpc] at hrun
    split_ifs at hrun <;> cases hrun
    · exact h.goto trivial
    · exact h.goto ⟨zero_add _, zero_le _⟩
  | msgIov asked lens total =>
    cases lens with
    | nil =>
      simp only [hpc] at hrun hfits
      cases hrun
      have hsum : total + 0 = asked := hfits.1
      exact h.finish hfits.2 fun _ => ⟨rfl, by omega, .inl (by omega)⟩
    | cons len lens =>
      simp only [hpc] at hrun hok hfits
      have hsum : total + (len + lens.sum) = asked := by
        exact hfits.1
      split_ifs at hrun with hz <;> cases hrun
      · exact h.goto ⟨by omega, hfits.2⟩
      · rw [hok.2]
        exact h.msgCopy hz (by omega) hfits.2 hok.1
  | msgAdvance asked len lens total chunk =>
    simp only [hpc] at hrun hfits
    obtain ⟨hasked, htotal, hlen, hchunk⟩ := hfits
    rw [if_neg (by omega)] at hrun
    cases hrun
    have hrec : total + chunk.length ≤ (s.received ++ chunk).length := by
      rw [length_append]
      omega
    have hfits : (ReaderPc.msgIov asked lens (total + chunk.length)).Fits
        (s.take chunk).ring.contents (s.received ++ chunk).length := ⟨by omega, hrec⟩
    exact (h.take hchunk).goto hfits

theorem Stream.store {stored : List (BitVec 8)} {pc : WriterPc}
    (hvalid : r.Valid) (hcontents : r.contents = s.ring.contents ++ stored)
    (hrest : stored ++ pc.rest = s.writer.rest) :
    Stream { s with ring := r, sent := s.sent ++ stored, writer := pc } := by
  refine ⟨hvalid, h.connected, ?_, ?_, ?_, h.log⟩
  · rw [h.history, hcontents, append_assoc]
  · rw [append_assoc, hrest, h.offered]
  · rw [hcontents]
    exact h.reader.append stored

theorem Stream.runWriter (hrun : s.runWriter = some s') : s'.Stream := by
  unfold System.runWriter at hrun
  cases hpc : s.writer with
  | idle => simp [hpc] at hrun
  | write rest =>
    obtain ⟨hvalid, hcontents, hrest⟩ := storeLoop_spec h.valid rest
    simp only [hpc] at hrun
    rw [if_pos h.connected] at hrun
    cases hrun
    refine h.store hvalid hcontents ?_
    rw [hpc]
    split_ifs with hnil
    · rw [hnil] at hrest
      exact hrest
    · exact hrest
  | msg rest =>
    cases rest with
    | nil =>
      simp only [hpc] at hrun
      cases hrun
      refine { h with offered := ?_ }
      rw [← h.offered, hpc]
      rfl
    | cons b bs =>
      simp only [hpc] at hrun
      rw [if_neg (not_not.mpr h.connected)] at hrun
      split_ifs at hrun with hfull <;> cases hrun
      · exact h
      · refine h.store (h.valid.store b) (GapRing.contents_store h.valid hfull b) ?_
        rw [hpc]
        rfl

theorem Stream.send (hidle : s.writer = .idle) {pc : WriterPc}
    {data : List (BitVec 8)} (hpc : pc.rest = data) :
    Stream { s with writer := pc, offered := s.offered ++ data } := by
  refine { h with offered := ?_ }
  have hrest : s.sent ++ [] = s.offered := by
    rw [← h.offered, hidle]
    rfl
  rw [hpc, ← hrest, append_nil]

theorem Stream.step {e : Event} (hok : s.Enough e) (hstep : s.Next e s') :
    s'.Stream := by
  unfold Next System.step at hstep
  cases e with
  | recv c =>
    simp only at hstep
    split at hstep <;> cases hstep
    exact h.chunkTurn (zero_le _) (zero_le _)
  | recvmsg lens =>
    simp only at hstep
    split at hstep <;> cases hstep
    exact h.goto trivial
  | sockWrite data =>
    simp only at hstep
    split at hstep <;> cases hstep
    exact h.send ‹_› rfl
  | sendmsg iov =>
    simp only at hstep
    split at hstep <;> cases hstep
    exact h.send ‹_› rfl
  | runReader signal nomem => exact h.runReader hok hstep
  | runWriter => exact h.runWriter hstep

end

/-- While receive sections that find bytes ask for no more than there are, the bytes received are a
prefix of those sent, each receive returns the smaller of what it asked for and what there was, and
none sleeps once it has bytes. -/
theorem reaches_stream {buf : ℕ → BitVec 8} {i : Fin unixSocketBufSize}
    (h : Run.Reaches Next Enough (start buf i) s) :
    s.received <+: s.sent ∧ s.sent <+: s.offered ∧
      (∀ e ∈ s.log, 0 < e.2.1 → e.2.2 = (min e.1 e.2.1 : ℕ)) ∧
      ∀ c total, s.reader = .chunkWait c total → total = 0 := by
  have hs : s.Stream := h.invariant (fun _ _ _ h hok hstep => h.step hok hstep) (start_stream buf i)
  refine ⟨?_, ?_, hs.log, fun c total hpc => ?_⟩
  · rw [hs.history]
    exact prefix_append _ _
  · rw [← hs.offered]
    exact prefix_append _ _
  · have hfits := hs.reader
    rw [hpc] at hfits
    exact hfits.2

theorem reaches_stream_twoWrites : ∃ s, Run.Reaches Next Enough (start (fun _ => 0) 0) s ∧
    s.log = [(2, 3, 2)] ∧ s.received = [7, 8] ∧ s.received <+: s.sent := by
  obtain ⟨s, hs, hlog, hreceived⟩ : ∃ s ∈ [.sockWrite [7], .runWriter, .sockWrite [8, 9],
      .runWriter, .recv ⟨true, false, 2⟩, .runReader false false, .runReader false false].foldlM
      (fun s e => if Enough s e then s.step e else none) (start (fun _ => 0) 0),
      s.log = [(2, 3, 2)] ∧ s.received = [7, 8] := by
    decide +kernel
  have hreach := Run.reaches_of_guarded hs
  exact ⟨s, hreach, hlog, hreceived, (reaches_stream hreach).1⟩

/-- One byte is sent and two asked for: the second byte received was never sent. -/
theorem recv_past_tail : ∃ s, Run.Reaches Next (fun _ _ => True) (start (fun _ => 0) 0) s ∧
    s.log = [(2, 1, 2)] ∧ s.received = [7, 0] ∧ s.sent = [7] := by
  obtain ⟨s, hs, hlog, hreceived, hsent⟩ : ∃ s ∈ [.sockWrite [7], .runWriter,
      .recv ⟨true, false, 2⟩, .runReader false false,
      .runReader false false].foldlM step (start (fun _ => 0) 0), s.log = [(2, 1, 2)] ∧
      s.received = [7, 0] ∧ s.sent = [7] := by
    decide +kernel
  exact ⟨s, Run.reaches_of_foldlM hs, hlog, hreceived, hsent⟩

end System
end SocketStream
end Doppio
