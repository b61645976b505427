import Doppio.Sys.Pipe

/-! The wakeups of the pipes. A thread on a wait queue does not run before it is taken off; both
ends stay open. -/
namespace Doppio.Pipe.System
open Function List Option

variable {α : Type*} [DecidableEq α] {s s' : System α} {e : Event α} {t : α}

section
variable (s : System α)

/-- What the scheduler allows. -/
def scheduled : Event α → Bool
  | .run t _ => !s.pb.linked t
  | .inactive _ => false
  | _ => true

/-- The thread waits for something that is there. -/
def couldGoOn (t : α) : Bool :=
  match s.pc t with
  | .readWait _ _ => 0 < s.pb.size
  | .writeWait _ _ kbuf => kbuf.length ≤ s.pb.freeSpace
  | _ => false

/-- Every thread in a call is blocked, and one could go on. -/
def LostWakeup : Prop :=
  (∀ t, (s.pc t).ready = false → s.pb.linked t) ∧ ∃ t, s.pb.linked t ∧ s.couldGoOn t

instance [Fintype α] (s : System α) : Decidable s.LostWakeup := inferInstanceAs (Decidable (_ ∧ _))

/-- A thread begins to wait only where no other waits. -/
def waitsAlone : Event α → Bool
  | .run t _ => match s.pc t with
    | .readLock _ _ | .readWait _ _ => s.pb.size ≠ 0 || s.pb.wwaitq.isEmpty
    | .writeLock _ _ kbuf | .writeWait _ _ kbuf =>
      kbuf.length ≤ s.pb.freeSpace || s.pb.rwaitq.isEmpty
    | _ => true
  | _ => true

structure Woken : Prop where
  refcnt : s.pb.refcnt = 2
  oneReader : s.pb.wwaitq.length ≤ 1
  oneWriter : s.pb.rwaitq.length ≤ 1
  reader : ∀ t ∈ s.pb.wwaitq, ∃ n done, s.pc t = .readWait n done
  writer : ∀ t ∈ s.pb.rwaitq, ∃ n done kbuf, s.pc t = .writeWait n done kbuf
  /-- a writer that has stored something is about to wake the reader -/
  stored : s.pb.wwaitq = [] ∨ s.pb.size = 0 ∨ ∃ t n done, s.pc t = .writeWake n done
  /-- a reader that has taken something out is about to wake the writer -/
  taken : ∀ t ∈ s.pb.rwaitq, s.pb.freeSpace < (s.pc t).chunk.length ∨
    ∃ u n done kbuf, s.pc u = .readWake n done kbuf

end

theorem Woken.not_lostWakeup (h : s.Woken) : ¬ s.LostWakeup := by
  rintro ⟨hall, t, ht, hgo⟩
  have hnone (u : α) (hpc : ∀ n done, s.pc u ≠ .readWait n done)
      (hpc' : ∀ n done kbuf, s.pc u ≠ .writeWait n done kbuf) : (s.pc u).ready = true := by
    by_contra hu
    have hlinked := hall u (by simpa using hu)
    simp only [PipeBuffer.linked, Bool.or_eq_true, decide_eq_true_eq] at hlinked
    rcases hlinked with hu | hu
    · obtain ⟨n, done, kbuf, hw⟩ := h.writer u hu
      exact hpc' n done kbuf hw
    · obtain ⟨n, done, hr⟩ := h.reader u hu
      exact hpc n done hr
  simp only [PipeBuffer.linked, Bool.or_eq_true, decide_eq_true_eq] at ht
  rcases ht with ht | ht
  · obtain ⟨n, done, kbuf, hw⟩ := h.writer t ht
    simp only [couldGoOn, hw, decide_eq_true_eq] at hgo
    rcases h.taken t ht with hlt | ⟨u, n, done, kbuf', hu⟩
    · rw [hw, Pc.chunk] at hlt
      omega
    · simpa [hu, Pc.ready] using hnone u
  · obtain ⟨n, done, hr⟩ := h.reader t ht
    simp only [couldGoOn, hr, decide_eq_true_eq] at hgo
    rcases h.stored with hnil | hzero | ⟨u, n, done, hu⟩
    · simp [hnil] at ht
    · omega
    · simpa [hu, Pc.ready] using hnone u

omit [DecidableEq α] in
theorem Fifo.size_add (h : s.Fifo) : s.pb.size + s.dequeued.length = s.enqueued.length := by
  rw [h.history, length_append, RingBuffer.length_contents]
  omega

theorem Woken.readSection {n done : ℕ} (h : s.Woken) (ht : s.pb.linked t = false)
    (halone : s.pb.size ≠ 0 ∨ s.pb.wwaitq = []) (hpc : ∀ n done, s.pc t ≠ .writeWake n done)
    (hpc' : ∀ n done kbuf, s.pc t ≠ .readWake n done kbuf) : (s.readSection t n done).Woken := by
  obtain ⟨hrefcnt, hone, hone', hreader, hwriter, hstored, htaken⟩ := h
  have hout : t ∉ s.pb.rwaitq ∧ t ∉ s.pb.wwaitq := by simpa [PipeBuffer.linked] using ht
  by_cases hzero : s.pb.size = 0
  · have hnil := halone.resolve_left (not_not.mpr hzero)
    have heq : s.readSection t n done =
        { s with pb := { s.pb with wwaitq := [t] } }.setPc t (.readWait n done) := by
      simp [System.readSection, hzero, hrefcnt, PipeBuffer.addWwaitq, ht, hnil]
    rw [heq]
    constructor <;> simp only [setPc, update_apply, PipeBuffer.freeSpace] at * <;> grind
  · have heq : s.readSection t n done = { s with
        pb := { s.pb with toRingBuffer := (s.pb.popMany (min (min (n - done) s.pb.size) pipeChunk)).2 }
        dequeued := s.dequeued ++ (s.pb.popMany (min (min (n - done) s.pb.size) pipeChunk)).1 }.setPc t
          (.readWake n done (s.pb.popMany (min (min (n - done) s.pb.size) pipeChunk)).1) := by
      simp [System.readSection, hzero, PipeBuffer.removeWaitQueue, erase_of_not_mem, hout.1, hout.2]
    rw [heq]
    constructor <;> simp only [setPc, update_apply] <;> grind

theorem Woken.writeSection {n done : ℕ} {kbuf : List (BitVec 8)} (h : s.Woken) (hf : s.Fifo)
    (hf' : (s.writeSection t n done kbuf).Fifo) (ht : s.pb.linked t = false)
    (halone : kbuf.length ≤ s.pb.freeSpace ∨ s.pb.rwaitq = [])
    (hpc : ∀ n done, s.pc t ≠ .writeWake n done)
    (hpc' : ∀ n done kbuf, s.pc t ≠ .readWake n done kbuf) :
    (s.writeSection t n done kbuf).Woken := by
  obtain ⟨hrefcnt, hone, hone', hreader, hwriter, hstored, htaken⟩ := h
  have hout : t ∉ s.pb.rwaitq ∧ t ∉ s.pb.wwaitq := by simpa [PipeBuffer.linked] using ht
  by_cases hfull : s.pb.freeSpace < kbuf.length
  · have hnil := halone.resolve_left (not_le.mpr hfull)
    have heq : s.writeSection t n done kbuf =
        { s with pb := { s.pb with rwaitq := [t] } }.setPc t (.writeWait n done kbuf) := by
      simp [System.writeSection, hfull, hrefcnt, PipeBuffer.addRwaitq, ht, hnil]
    rw [heq]
    constructor <;> simp only [setPc, update_apply, PipeBuffer.freeSpace] at * <;> grind [Pc.chunk]
  · have heq : s.writeSection t n done kbuf = { s with
        pb := { s.pb with toRingBuffer := s.pb.pushAll (kbuf.take (min kbuf.length s.pb.freeSpace)) }
        enqueued := s.enqueued ++ kbuf.take (min kbuf.length s.pb.freeSpace)
        chunks := s.chunks ++ [(t, kbuf)] }.setPc t
          (.writeWake n (done + min kbuf.length s.pb.freeSpace)) := by
      have hremove : s.pb.removeWaitQueue t = s.pb := by
        simp [PipeBuffer.removeWaitQueue, erase_of_not_mem, hout.1, hout.2]
      simp [System.writeSection, hfull, hrefcnt, hremove]
    rw [heq] at hf' ⊢
    have hle := freeSpace_eq hf.valid
    have hle' := freeSpace_eq hf'.valid
    have hsize := hf.size_add
    have hsize' := hf'.size_add
    simp only [setPc, length_append] at hle' hsize'
    constructor <;> simp only [setPc, update_apply] <;> grind

theorem Woken.step (h : s.Woken) (hf : s.Fifo) (hsched : s.scheduled e) (halone : s.waitsAlone e)
    (hs : s.step e = some s') : s'.Woken := by
  have hf' := hf.step hs
  obtain ⟨hrefcnt, hone, hone', hreader, hwriter, hstored, htaken⟩ := id h
  cases e with
  | read t n =>
    obtain ⟨hready, hs⟩ := ite_none_right_eq_some.mp hs
    cases hs
    constructor <;> simp only [setPc, update_apply] <;> grind [Pc.ready]
  | write t n =>
    obtain ⟨hready, hs⟩ := ite_none_right_eq_some.mp hs
    cases hs
    constructor <;> simp only [setPc, update_apply] <;> grind [Pc.ready]
  | inactive e => cases hsched
  | run t src =>
    obtain ⟨-, hs⟩ := ite_none_left_eq_some.mp hs
    have ht : s.pb.linked t = false := by simpa [scheduled] using hsched
    have hout : t ∉ s.pb.rwaitq ∧ t ∉ s.pb.wwaitq := by simpa [PipeBuffer.linked] using ht
    unfold System.run at hs
    cases hpc : s.pc t with
    | idle => simp [hpc] at hs
    | returned r => simp [hpc] at hs
    | readLock n done | readWait n done =>
      simp only [hpc] at hs
      cases hs
      exact h.readSection ht (by simpa [waitsAlone, hpc] using halone) (by simp [hpc]) (by simp [hpc])
    | writeLock n done kbuf | writeWait n done kbuf =>
      simp only [hpc] at hs
      cases hs
      exact h.writeSection hf hf' ht (by simpa [waitsAlone, hpc] using halone) (by simp [hpc])
        (by simp [hpc])
    | readWake n done kbuf =>
      simp only [hpc] at hs
      cases hs
      have hnil : s.pb.rwaitq.tail = [] := eq_nil_of_length_eq_zero (by simp; omega)
      constructor <;> simp only [setPc, update_apply, PipeBuffer.wakeRwaitq, hnil] <;> grind
    | writeCopy n done =>
      simp only [hpc] at hs
      obtain ⟨-, hs⟩ := ite_none_right_eq_some.mp hs
      cases hs
      constructor <;> simp only [setPc, update_apply] <;> grind
    | writeWake n done =>
      simp only [hpc] at hs
      cases hs
      have hnil : s.pb.wwaitq.tail = [] := eq_nil_of_length_eq_zero (by simp; omega)
      constructor <;> simp only [setPc, update_apply, PipeBuffer.wakeWwaitq, hnil] <;>
        grind [PipeBuffer.freeSpace]

/-- While a thread begins to wait only where no other does, no wakeup is lost. -/
theorem reaches_not_lostWakeup
    (h : Run.Reaches Next (fun s e => s.scheduled e ∧ s.waitsAlone e) start s) :
    ¬ s.LostWakeup := by
  have hinv : s.Fifo ∧ s.Woken := by
    apply h.invariant (I := fun s => s.Fifo ∧ s.Woken)
    · exact fun s e s' hs hok he => ⟨hs.1.step he, hs.2.step hs.1 hok.1 hok.2 he⟩
    · refine ⟨start_fifo, rfl, ?_, ?_, ?_, ?_, .inl rfl, ?_⟩ <;> simp [start, PipeBuffer.init]
  exact hinv.2.not_lostWakeup

theorem reaches_not_lostWakeup_byte : ∃ s : System (Fin 2),
    s.pb.size = 1 ∧ s.pb.wwaitq = [0] ∧ ¬ s.LostWakeup := by
  obtain ⟨s, hs, hsize, hq⟩ : ∃ s ∈ [Event.read (0 : Fin 2) 1, .run 0 [], .write 1 1, .run 1 [7],
      .run 1 []].foldlM (fun s e => if scheduled s e ∧ waitsAlone s e then step s e else none) start,
      s.pb.size = 1 ∧ s.pb.wwaitq = [0] := by
    decide +kernel
  exact ⟨s, hsize, hq, reaches_not_lostWakeup (Run.reaches_of_guarded hs)⟩

/-- Two readers of one byte each wait, and the write of two bytes wakes the first only. -/
theorem reader_misses_wakeup : ∃ s : System (Fin 3),
    Run.Reaches Next (fun s e => s.scheduled e) start s ∧ s.LostWakeup := by
  obtain ⟨s, hs, hlost⟩ : ∃ s ∈ [Event.read (0 : Fin 3) 1, .run 0 [], .read 1 1, .run 1 [],
      .write 2 2, .run 2 [7, 8], .run 2 [], .run 2 [], .run 0 [], .run 0 []].foldlM
      (fun s e => if scheduled s e then step s e else none) start, s.LostWakeup := by
    decide +kernel
  exact ⟨s, Run.reaches_of_guarded hs, hlost⟩

end Doppio.Pipe.System
