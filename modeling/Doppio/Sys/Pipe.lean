import Doppio.Kernel.Errno
import Doppio.Library.RingBuffer
import Doppio.Library.Run

/-! The pipes of `kernel/sys/sys_pipe.c`, one step for each section under `pb->lock`. As in the
source a reader sleeps on `wwaitq` and a writer on `rwaitq`; a thread that has yielded may run again
at any time. -/
namespace Doppio
open Nat

def pipeBufSize : ℕ := 4096

/-- The size of `kbuf`. -/
def pipeChunk : ℕ := 256

/-- `struct pipe_buffer`; the wait queues hold threads. -/
structure PipeBuffer (α : Type*) extends RingBuffer pipeBufSize (BitVec 8) where
  refcnt : ℤ
  rwaitq : List α
  wwaitq : List α

namespace PipeBuffer
variable {α : Type*} [DecidableEq α]

def init : PipeBuffer α := ⟨⟨fun _ => 0, 0, 0, 0⟩, 2, [], []⟩

variable (pb : PipeBuffer α)

/-- `PIPE_BUF_SIZE - pb->size` in `size_t`. -/
def freeSpace : ℕ := (pipeBufSize + 2 ^ 64 - pb.size) % 2 ^ 64

/-- `list_empty(&t->t_wait_node)` is false. -/
def linked (t : α) : Bool := t ∈ pb.rwaitq || t ∈ pb.wwaitq

def addRwaitq (t : α) : PipeBuffer α :=
  if pb.linked t then pb else { pb with rwaitq := pb.rwaitq ++ [t] }

def addWwaitq (t : α) : PipeBuffer α :=
  if pb.linked t then pb else { pb with wwaitq := pb.wwaitq ++ [t] }

/-- `remove_wait_queue` unlinks the thread's one node from whichever queue. -/
def removeWaitQueue (t : α) : PipeBuffer α :=
  { pb with rwaitq := pb.rwaitq.erase t, wwaitq := pb.wwaitq.erase t }

def wakeRwaitq : PipeBuffer α := { pb with rwaitq := pb.rwaitq.tail }

def wakeWwaitq : PipeBuffer α := { pb with wwaitq := pb.wwaitq.tail }

/-- The locked part of `pipe_inactive` and its `wake_up_all` of both queues. -/
def inactive : PipeBuffer α :=
  { pb with refcnt := pb.refcnt - 1, rwaitq := [], wwaitq := [] }

end PipeBuffer

namespace Pipe

/-- `n` bytes are asked for and `done` are through. -/
inductive Pc where
  | idle
  | returned (r : ℤ)
  /-- before the `spin_lock` of a turn of `pipe_read` -/
  | readLock (n done : ℕ)
  /-- in the `thread_yield` of `pipe_read` -/
  | readWait (n done : ℕ)
  /-- after the `spin_unlock`: `copy_to_user` and `wake_up` -/
  | readWake (n done : ℕ) (kbuf : List (BitVec 8))
  /-- before the `copy_from_user` of a turn of `pipe_write` -/
  | writeCopy (n done : ℕ)
  | writeLock (n done : ℕ) (kbuf : List (BitVec 8))
  | writeWait (n done : ℕ) (kbuf : List (BitVec 8))
  /-- after the `spin_unlock`: `wake_up` -/
  | writeWake (n done : ℕ)

inductive End where
  | reader
  | writer
  deriving DecidableEq

/-- A pipe, its threads, and its bytes: those stored, those taken out, and what each turn of
`pipe_write` copied before it stored it. -/
structure System (α : Type*) where
  pb : PipeBuffer α
  /-- `vp->data` is not null -/
  data : End → Bool
  pc : α → Pc
  enqueued : List (BitVec 8)
  dequeued : List (BitVec 8)
  chunks : List (α × List (BitVec 8))

inductive Event (α : Type*) where
  | read (t : α) (n : ℕ)
  | write (t : α) (n : ℕ)
  /-- the next section of a thread; `src`: what `copy_from_user` finds -/
  | run (t : α) (src : List (BitVec 8))
  | inactive (e : End)

def ssize (done : ℕ) : ℤ := (BitVec.ofNat 64 done).toInt

/-- The loop test of `pipe_read`. -/
def readTurn (n done : ℕ) : Pc := if done < n then .readLock n done else .returned (ssize done)

/-- The loop test of `pipe_write`. -/
def writeTurn (n done : ℕ) : Pc := if done < n then .writeCopy n done else .returned (ssize done)

/-- The chunk held between `copy_from_user` and the end of the section. -/
def Pc.chunk : Pc → List (BitVec 8)
  | .writeLock _ _ kbuf => kbuf
  | .writeWait _ _ kbuf => kbuf
  | _ => []

@[simp] theorem readTurn_chunk (n done : ℕ) : (readTurn n done).chunk = [] := by
  unfold readTurn
  split_ifs <;> rfl

@[simp] theorem writeTurn_chunk (n done : ℕ) : (writeTurn n done).chunk = [] := by
  unfold writeTurn
  split_ifs <;> rfl

def Pc.ready : Pc → Bool
  | .idle => true
  | .returned _ => true
  | _ => false

namespace System
variable {α : Type*} [DecidableEq α]

def start : System α := ⟨PipeBuffer.init, fun _ => true, fun _ => .idle, [], [], []⟩

section
variable (s : System α)

def setPc (t : α) (pc : Pc) : System α :=
  { s with pc := Function.update s.pc t pc }

/-- `pipe_read` from a `spin_lock` to the next `spin_unlock`. -/
def readSection (t : α) (n done : ℕ) : System α :=
  if s.pb.size = 0 ∧ 2 ≤ s.pb.refcnt then
    { s with pb := s.pb.addWwaitq t }.setPc t (.readWait n done)
  else
    let pb := s.pb.removeWaitQueue t
    if pb.size = 0 then { s with pb := pb }.setPc t (.returned (ssize done))
    else
      let chunk := min (min (n - done) pb.size) pipeChunk
      let taken := pb.popMany chunk
      { s with
        pb := { pb with toRingBuffer := taken.2 }
        dequeued := s.dequeued ++ taken.1 }.setPc t (.readWake n done taken.1)

/-- `pipe_write` from a `spin_lock` to the next `spin_unlock`; the chunk is cut to the free space.
-/
def writeSection (t : α) (n done : ℕ) (kbuf : List (BitVec 8)) : System α :=
  if 2 ≤ s.pb.refcnt ∧ s.pb.freeSpace < kbuf.length then
    { s with pb := s.pb.addRwaitq t }.setPc t (.writeWait n done kbuf)
  else
    let pb := s.pb.removeWaitQueue t
    if pb.refcnt < 2 then
      { s with pb := pb }.setPc t (.returned (if 0 < done then ssize done else -ePIPE))
    else
      let chunk := min kbuf.length pb.freeSpace
      { s with
        pb := { pb with toRingBuffer := pb.pushAll (kbuf.take chunk) }
        enqueued := s.enqueued ++ kbuf.take chunk
        chunks := s.chunks ++ [(t, kbuf)] }.setPc t (.writeWake n (done + chunk))

def run (t : α) (src : List (BitVec 8)) : Option (System α) :=
  match s.pc t with
  | .idle => none
  | .returned _ => none
  | .readLock n done => some (s.readSection t n done)
  | .readWait n done => some (s.readSection t n done)
  | .readWake n done kbuf =>
    some ({ s with pb := s.pb.wakeRwaitq }.setPc t (readTurn n (done + kbuf.length)))
  | .writeCopy n done =>
    if src.length = min (n - done) pipeChunk then some (s.setPc t (.writeLock n done src))
    else none
  | .writeLock n done kbuf => some (s.writeSection t n done kbuf)
  | .writeWait n done kbuf => some (s.writeSection t n done kbuf)
  | .writeWake n done => some ({ s with pb := s.pb.wakeWwaitq }.setPc t (writeTurn n done))

/-- A call on an end with null `vp->data` returns `-EINVAL`; with the count at zero the buffer is
freed and nothing runs on it. -/
def step : Event α → Option (System α)
  | .read t n =>
    if (s.pc t).ready ∧ n < 2 ^ 64 then
      some (s.setPc t (if s.data .reader then readTurn n 0 else .returned (-22)))
    else none
  | .write t n =>
    if (s.pc t).ready ∧ n < 2 ^ 64 then
      some (s.setPc t (if s.data .writer then writeTurn n 0 else .returned (-22)))
    else none
  | .run t src => if s.pb.refcnt = 0 then none else s.run t src
  | .inactive e =>
    if s.data e then
      some { s with pb := s.pb.inactive, data := Function.update s.data e false }
    else some s

def Next (e : Event α) (s' : System α) : Prop := s.step e = some s'

/-- The ring holds what is stored and not taken out; the bytes stored are the writers' chunks one
after another. -/
structure Fifo : Prop where
  valid : s.pb.Valid
  history : s.enqueued = s.dequeued ++ s.pb.contents
  whole : s.enqueued = s.chunks.flatMap Prod.snd
  short : ∀ c ∈ s.chunks, c.2.length ≤ pipeChunk
  held : ∀ t, (s.pc t).chunk.length ≤ pipeChunk

end

omit [DecidableEq α] in
theorem start_fifo : (start : System α).Fifo where
  valid := RingBuffer.valid_empty _ (by decide)
  history := rfl
  whole := rfl
  short := by simp [start]
  held := fun _ => zero_le _

omit [DecidableEq α] in
theorem freeSpace_eq {pb : PipeBuffer α} (h : pb.Valid) :
    pb.freeSpace = pipeBufSize - pb.size := by
  have := h.size_le
  unfold PipeBuffer.freeSpace pipeBufSize at *
  omega

variable {s s' : System α}

theorem Fifo.setPc (h : s.Fifo) {t : α} {pc : Pc}
    (hpc : s'.pc = Function.update s.pc t pc) (hring : s'.pb.toRingBuffer = s.pb.toRingBuffer)
    (henq : s'.enqueued = s.enqueued) (hdeq : s'.dequeued = s.dequeued)
    (hchunks : s'.chunks = s.chunks) (hheld : pc.chunk.length ≤ pipeChunk) : s'.Fifo where
  valid := by rw [hring]; exact h.valid
  history := by rw [henq, hdeq, hring]; exact h.history
  whole := by rw [henq, hchunks]; exact h.whole
  short := by rw [hchunks]; exact h.short
  held := by
    intro u
    rw [hpc]
    by_cases hut : u = t
    · subst hut
      rwa [Function.update_self]
    · rw [Function.update_of_ne hut]
      exact h.held u

theorem addRwaitq_toRingBuffer (pb : PipeBuffer α) (t : α) :
    (pb.addRwaitq t).toRingBuffer = pb.toRingBuffer := by
  unfold PipeBuffer.addRwaitq
  split_ifs <;> rfl

theorem addWwaitq_toRingBuffer (pb : PipeBuffer α) (t : α) :
    (pb.addWwaitq t).toRingBuffer = pb.toRingBuffer := by
  unfold PipeBuffer.addWwaitq
  split_ifs <;> rfl

theorem Fifo.readSection (h : s.Fifo) (t : α) (n done : ℕ) :
    (s.readSection t n done).Fifo := by
  unfold System.readSection
  dsimp only
  split_ifs
  · exact h.setPc rfl (addWwaitq_toRingBuffer s.pb t) rfl rfl rfl (zero_le _)
  · exact h.setPc rfl rfl rfl rfl rfl (zero_le _)
  · -- at most `size` bytes are taken, so the list of contents splits
    have hle : min (min (n - done) s.pb.size) pipeChunk ≤ s.pb.size :=
      (min_le_left _ _).trans (min_le_right _ _)
    obtain ⟨hvalid, hcontents⟩ := RingBuffer.popMany_spec h.valid _ hle
    refine Fifo.setPc (s := { s with
      pb := { s.pb with
          toRingBuffer := (s.pb.popMany (min (min (n - done) s.pb.size) pipeChunk)).2 }
      dequeued := s.dequeued ++ (s.pb.popMany (min (min (n - done) s.pb.size) pipeChunk)).1 })
      ⟨hvalid, ?_, h.whole, h.short, h.held⟩ rfl rfl rfl rfl rfl (zero_le _)
    rw [h.history, hcontents, List.append_assoc]

theorem Fifo.writeSection (h : s.Fifo) (t : α) (n done : ℕ)
    (kbuf : List (BitVec 8)) (hk : kbuf.length ≤ pipeChunk) :
    (s.writeSection t n done kbuf).Fifo := by
  unfold System.writeSection
  by_cases hfull : 2 ≤ s.pb.refcnt ∧ s.pb.freeSpace < kbuf.length
  · rw [if_pos hfull]
    exact h.setPc rfl (addRwaitq_toRingBuffer s.pb t) rfl rfl rfl hk
  rw [if_neg hfull]
  by_cases hbroken : (s.pb.removeWaitQueue t).refcnt < 2
  · rw [if_pos hbroken]
    exact h.setPc rfl rfl rfl rfl rfl (zero_le _)
  · rw [if_neg hbroken]
    have hroom : kbuf.length ≤ s.pb.freeSpace := by
      by_contra hlt
      exact hfull ⟨not_lt.mp hbroken, not_le.mp hlt⟩
    have hchunk : min kbuf.length (s.pb.removeWaitQueue t).freeSpace = kbuf.length :=
      min_eq_left hroom
    rw [freeSpace_eq h.valid] at hroom
    have hsize := h.valid.size_le
    obtain ⟨hvalid, hcontents⟩ := RingBuffer.pushAll_spec h.valid kbuf (by omega)
    simp only [hchunk, List.take_length]
    refine Fifo.setPc (s := { s with
      pb := { s.pb with toRingBuffer := s.pb.pushAll kbuf }
      enqueued := s.enqueued ++ kbuf
      chunks := s.chunks ++ [(t, kbuf)] })
      ⟨hvalid, ?_, ?_, ?_, h.held⟩ rfl rfl rfl rfl rfl (zero_le _)
    · rw [hcontents, h.history, List.append_assoc]
    · simp [h.whole]
    · simp only [List.mem_append, List.mem_singleton]
      rintro c (hc | rfl)
      · exact h.short c hc
      · exact hk

theorem Fifo.run (h : s.Fifo) {t : α} {src : List (BitVec 8)}
    (hrun : s.run t src = some s') : s'.Fifo := by
  unfold System.run at hrun
  split at hrun
  case h_1 => cases hrun
  case h_2 => cases hrun
  case h_3 n done _ => cases hrun; exact h.readSection t n done
  case h_4 n done _ => cases hrun; exact h.readSection t n done
  case h_5 n done kbuf _ =>
    cases hrun
    exact h.setPc rfl rfl rfl rfl rfl (by simp)
  case h_6 n done _ =>
    split_ifs at hrun with hsrc
    cases hrun
    refine h.setPc rfl rfl rfl rfl rfl ?_
    show src.length ≤ pipeChunk
    rw [hsrc]
    exact min_le_right _ _
  case h_7 n done kbuf hpc =>
    cases hrun
    exact h.writeSection t n done kbuf (by simpa [hpc, Pc.chunk] using h.held t)
  case h_8 n done kbuf hpc =>
    cases hrun
    exact h.writeSection t n done kbuf (by simpa [hpc, Pc.chunk] using h.held t)
  case h_9 n done _ =>
    cases hrun
    exact h.setPc rfl rfl rfl rfl rfl (by simp)

theorem Fifo.step (h : s.Fifo) {e : Event α} (hstep : s.step e = some s') :
    s'.Fifo := by
  cases e with
  | read t n =>
    simp only [System.step] at hstep
    split_ifs at hstep <;> cases hstep
    · exact h.setPc rfl rfl rfl rfl rfl (by simp)
    · exact h.setPc rfl rfl rfl rfl rfl (zero_le _)
  | write t n =>
    simp only [System.step] at hstep
    split_ifs at hstep <;> cases hstep
    · exact h.setPc rfl rfl rfl rfl rfl (by simp)
    · exact h.setPc rfl rfl rfl rfl rfl (zero_le _)
  | run t src =>
    simp only [System.step] at hstep
    split_ifs at hstep
    exact h.run hstep
  | inactive e =>
    simp only [System.step] at hstep
    split_ifs at hstep <;> cases hstep
    · exact { h with }
    · exact h

/-- The counters describe one arc of the ring, what was taken out comes first in what was stored,
and each turn of `pipe_write` has stored its whole chunk of at most 256 bytes in one piece. -/
theorem reaches_fifo {s : System α} (h : Run.Reaches Next (fun _ _ => True) start s) :
    s.pb.size ≤ 4096 ∧ s.pb.tail = (s.pb.head + s.pb.size) % 4096 ∧
      s.dequeued <+: s.enqueued ∧ s.enqueued = s.chunks.flatMap Prod.snd ∧
      ∀ c ∈ s.chunks, c.2.length ≤ 256 := by
  have hfifo : s.Fifo := h.invariant (fun _ _ _ hs _ hstep => hs.step hstep) start_fifo
  exact ⟨hfifo.valid.size_le, hfifo.valid.tail_eq, ⟨s.pb.contents, hfifo.history.symm⟩,
    hfifo.whole, hfifo.short⟩

theorem reaches_fifo_twoBytes : ∃ s : System (Fin 2),
    [Event.write 0 2, .run 0 [7, 8], .run 0 [], .read 1 1, .run 1 []].foldlM step start = some s ∧
      s.enqueued = [7, 8] ∧ s.dequeued = [7] ∧ s.dequeued <+: s.enqueued := by
  have hrun : [Event.write (0 : Fin 2) 2, .run 0 [7, 8], .run 0 [], .read 1 1, .run 1 []].foldlM
      step start = some _ := rfl
  exact ⟨_, hrun, rfl, rfl, (reaches_fifo (Run.reaches_of_foldlM hrun)).2.2.1⟩

end System
end Pipe
end Doppio
