import Doppio.Library.Run
import Doppio.Library.Word

/-! The reader-writer semaphore of `kernel/lib/lock.c`, one step for each section under `wait_lock`:
a thread keeps the lock until it has been switched away. -/
namespace Doppio
open Function Finset

/-- `rw_semaphore_t`; `count` is an `int`. -/
structure RwSem (α : Type*) where
  count : BitVec 32
  owner : Option α
  readWaitQueue : List α
  writeWaitQueue : List α

namespace RwSem
variable {α : Type*}

def init : RwSem α := ⟨0, none, [], []⟩

section
variable (r : RwSem α)

/-- One turn of `down_read`: it takes the lock or joins the readers' queue. -/
def downRead (t : α) : RwSem α × Bool :=
  if 0 ≤ r.count.toInt ∧ r.writeWaitQueue.isEmpty then
    ({ r with count := r.count + 1 }, true)
  else ({ r with readWaitQueue := r.readWaitQueue ++ [t] }, false)

def downWrite (t : α) : RwSem α × Bool :=
  if r.count = 0 then ({ r with count := -1, owner := some t }, true)
  else ({ r with writeWaitQueue := r.writeWaitQueue ++ [t] }, false)

/-- The first waiter that a release takes off its queue: a writer if there is one. -/
def wakeFirst : RwSem α × Option α :=
  match r.writeWaitQueue with
  | w :: ws => ({ r with writeWaitQueue := ws }, some w)
  | [] =>
    match r.readWaitQueue with
    | w :: ws => ({ r with readWaitQueue := ws }, some w)
    | [] => (r, none)

def upRead : RwSem α × Option α :=
  let r := { r with count := r.count - 1 }
  if r.count = 0 then r.wakeFirst else (r, none)

def upWrite : RwSem α × Option α :=
  { r with count := 0, owner := none }.wakeFirst

def downgradeWrite : RwSem α := { r with count := 1, owner := none }

end

/-- Asleep on a queue, made ready but not yet back at the semaphore, or holding it. -/
inductive Pc where
  | idle
  | queuedRead
  | queuedWrite
  | readyRead
  | readyWrite
  | reading
  | writing
  deriving DecidableEq

def Pc.woken : Pc → Pc
  | .queuedRead => .readyRead
  | .queuedWrite => .readyWrite
  | p => p

inductive Call where
  | read
  | write
  | downgrade
  deriving DecidableEq

structure System (α : Type*) where
  sem : RwSem α
  pc : α → Pc

namespace System

def start : System α := ⟨init, fun _ => .idle⟩

variable [DecidableEq α]

section
variable (s : System α)

def enter (t : α) (r : RwSem α × Bool) (won lost : Pc) : System α :=
  ⟨r.1, update s.pc t (if r.2 then won else lost)⟩

/-- The waiter taken off its queue, if any, becomes ready. -/
def wake : Option α → System α
  | none => s
  | some w => { s with pc := update s.pc w (s.pc w).woken }

def leave (t : α) (r : RwSem α × Option α) : System α :=
  (⟨r.1, update s.pc t .idle⟩ : System α).wake r.2

def step (t : α) (call : Call) : System α :=
  match s.pc t with
  | .idle =>
    match call with
    | .read => s.enter t (s.sem.downRead t) .reading .queuedRead
    | .write => s.enter t (s.sem.downWrite t) .writing .queuedWrite
    | .downgrade => s
  | .readyRead => s.enter t (s.sem.downRead t) .reading .queuedRead
  | .readyWrite => s.enter t (s.sem.downWrite t) .writing .queuedWrite
  | .reading => s.leave t s.sem.upRead
  | .writing =>
    match call with
    | .downgrade => ⟨s.sem.downgradeWrite, update s.pc t .reading⟩
    | _ => s.leave t s.sem.upWrite
  | .queuedRead => s
  | .queuedWrite => s

def Next (e : α × Call) (s' : System α) : Prop := s' = s.step e.1 e.2

structure Queued : Prop where
  read : ∀ t, t ∈ s.sem.readWaitQueue ↔ s.pc t = .queuedRead
  write : ∀ t, t ∈ s.sem.writeWaitQueue ↔ s.pc t = .queuedWrite
  nodup_read : s.sem.readWaitQueue.Nodup
  nodup_write : s.sem.writeWaitQueue.Nodup

/-- A free semaphore with waiters has a thread on its way, a writer if one waits. -/
structure Woken : Prop where
  writer : s.sem.count = 0 → s.sem.writeWaitQueue ≠ [] → ∃ t, s.pc t = .readyWrite
  reader : s.sem.count = 0 → s.sem.readWaitQueue ≠ [] →
    ∃ t, s.pc t = .readyRead ∨ s.pc t = .readyWrite

end

variable {s : System α} {t : α}

section
variable (h : s.Queued)
include h

theorem Queued.move {sem : RwSem α} {p : Pc} (hread : sem.readWaitQueue = s.sem.readWaitQueue)
    (hwrite : sem.writeWaitQueue = s.sem.writeWaitQueue)
    (ht : s.pc t ≠ .queuedRead ∧ s.pc t ≠ .queuedWrite) (hp : p ≠ .queuedRead ∧ p ≠ .queuedWrite) :
    (⟨sem, update s.pc t p⟩ : System α).Queued := by
  refine ⟨?_, ?_, ?_, ?_⟩
  · intro u
    rw [hread, h.read]
    by_cases hut : u = t <;> simp [hut, ht.1, hp.1]
  · intro u
    rw [hwrite, h.write]
    by_cases hut : u = t <;> simp [hut, ht.2, hp.2]
  · rw [hread]
    exact h.nodup_read
  · rw [hwrite]
    exact h.nodup_write

theorem Queued.sleepRead (ht : s.pc t ≠ .queuedRead ∧ s.pc t ≠ .queuedWrite) :
    (⟨{ s.sem with readWaitQueue := s.sem.readWaitQueue ++ [t] },
      update s.pc t .queuedRead⟩ : System α).Queued := by
  refine ⟨?_, ?_, ?_, h.nodup_write⟩
  · intro u
    rw [List.mem_append, h.read]
    by_cases hut : u = t <;> simp [hut]
  · intro u
    rw [h.write]
    by_cases hut : u = t <;> simp [hut, ht.2]
  · refine h.nodup_read.append (List.nodup_singleton t) ?_
    rw [List.disjoint_singleton, h.read]
    exact ht.1

theorem Queued.sleepWrite (ht : s.pc t ≠ .queuedRead ∧ s.pc t ≠ .queuedWrite) :
    (⟨{ s.sem with writeWaitQueue := s.sem.writeWaitQueue ++ [t] },
      update s.pc t .queuedWrite⟩ : System α).Queued := by
  refine ⟨?_, ?_, h.nodup_read, ?_⟩
  · intro u
    rw [h.read]
    by_cases hut : u = t <;> simp [hut, ht.1]
  · intro u
    rw [List.mem_append, h.write]
    by_cases hut : u = t <;> simp [hut]
  · refine h.nodup_write.append (List.nodup_singleton t) ?_
    rw [List.disjoint_singleton, h.write]
    exact ht.2

theorem Queued.wakeWriter {w : α} {ws : List α} (hq : s.sem.writeWaitQueue = w :: ws) :
    (⟨{ s.sem with writeWaitQueue := ws }, update s.pc w .readyWrite⟩ :
      System α).Queued := by
  have hw : s.pc w = .queuedWrite := by
    rw [← h.write, hq]
    exact List.mem_cons_self
  have hnodup := h.nodup_write
  rw [hq, List.nodup_cons] at hnodup
  refine ⟨?_, ?_, h.nodup_read, hnodup.2⟩
  · intro u
    rw [h.read]
    by_cases hut : u = w <;> simp [hut, hw]
  · intro u
    by_cases hut : u = w
    · subst hut
      simp [hnodup.1]
    · show u ∈ ws ↔ update s.pc w .readyWrite u = .queuedWrite
      rw [update_of_ne hut, ← h.write, hq]
      simp [hut]

theorem Queued.wakeReader {w : α} {ws : List α} (hq : s.sem.readWaitQueue = w :: ws) :
    (⟨{ s.sem with readWaitQueue := ws }, update s.pc w .readyRead⟩ :
      System α).Queued := by
  have hw : s.pc w = .queuedRead := by
    rw [← h.read, hq]
    exact List.mem_cons_self
  have hnodup := h.nodup_read
  rw [hq, List.nodup_cons] at hnodup
  refine ⟨?_, ?_, hnodup.2, h.nodup_write⟩
  · intro u
    by_cases hut : u = w
    · subst hut
      simp [hnodup.1]
    · show u ∈ ws ↔ update s.pc w .readyRead u = .queuedRead
      rw [update_of_ne hut, ← h.read, hq]
      simp [hut]
  · intro u
    rw [h.write]
    by_cases hut : u = w <;> simp [hut, hw]

end

section holders
variable [Fintype α]

omit [DecidableEq α] in
def at_ (s : System α) (p : Pc) : Finset α := Finset.univ.filter fun t => s.pc t = p

omit [DecidableEq α] in
@[simp] theorem mem_at {p : Pc} : t ∈ s.at_ p ↔ s.pc t = p := by
  simp [at_]

theorem at_update (s : System α) (sem : RwSem α) (t : α) (p c : Pc) :
    (⟨sem, update s.pc t p⟩ : System α).at_ c =
      if p = c then insert t (s.at_ c) else (s.at_ c).erase t := by
  ext u
  by_cases hut : u = t
  · subst hut
    split_ifs with hpc <;> simp [hpc]
  · split_ifs <;> simp [hut]

omit [DecidableEq α] [Fintype α] in
/-- `count` tells who holds the semaphore: one writer, or that many readers. -/
def CountedBy (count : BitVec 32) (readers writers : Finset α) : Prop :=
  (count = -1 ∧ (∃ w, writers = {w}) ∧ readers = ∅) ∨ (count.toInt = readers.card ∧ writers = ∅)

variable {count : BitVec 32}

omit [DecidableEq α] [Fintype α] in
theorem CountedBy.no_writer {readers writers : Finset α}
    (h : CountedBy count readers writers) (hcount : 0 ≤ count.toInt) :
    count.toInt = readers.card ∧ writers = ∅ := by
  rcases h with ⟨rfl, _⟩ | h
  · cases hcount
  · exact h

omit [Fintype α] in
theorem CountedBy.enterRead {readers writers : Finset α}
    (h : CountedBy count readers writers) (hcount : 0 ≤ count.toInt) (ht : t ∉ readers)
    (hfew : (insert t readers).card < 2 ^ 31) :
    CountedBy (count + 1) (insert t readers) writers := by
  obtain ⟨hcard, hw⟩ := h.no_writer hcount
  rw [card_insert_of_notMem ht] at hfew
  refine .inr ⟨?_, hw⟩
  rw [Word.toInt_add_one (by omega), hcard, card_insert_of_notMem ht]
  rfl

omit [DecidableEq α] [Fintype α] in
theorem CountedBy.enterWrite {readers writers : Finset α}
    (h : CountedBy 0 readers writers) : CountedBy (-1) readers {t} := by
  obtain ⟨hcard, _⟩ := h.no_writer (by decide)
  refine .inl ⟨rfl, ⟨t, rfl⟩, ?_⟩
  rw [← card_eq_zero]
  have : ((0 : BitVec 32)).toInt = 0 := by decide
  omega

omit [Fintype α] in
theorem CountedBy.leaveRead {readers writers : Finset α}
    (h : CountedBy count readers writers) (ht : t ∈ readers) :
    CountedBy (count - 1) (readers.erase t) writers := by
  rcases h with ⟨_, _, hr⟩ | ⟨hcard, hw⟩
  · rw [hr] at ht
    exact absurd ht (notMem_empty t)
  · have hpos := card_pos.mpr ⟨t, ht⟩
    refine .inr ⟨?_, hw⟩
    rw [Word.toInt_sub_one (by omega), hcard, card_erase_of_mem ht]
    omega

omit [Fintype α] in
theorem CountedBy.leaveWrite {readers writers : Finset α}
    (h : CountedBy count readers writers) (ht : t ∈ writers) :
    readers = ∅ ∧ writers.erase t = ∅ := by
  rcases h with ⟨_, ⟨w, hw⟩, hr⟩ | ⟨_, hw⟩
  · rw [hw, mem_singleton] at ht
    rw [hw, ht]
    exact ⟨hr, erase_singleton w⟩
  · rw [hw] at ht
    exact absurd ht (notMem_empty t)

structure Sound (s : System α) : Prop where
  queued : s.Queued
  woken : s.Woken
  counted : CountedBy s.sem.count (s.at_ .reading) (s.at_ .writing)

omit [DecidableEq α] in
theorem start_sound : (start : System α).Sound where
  queued := ⟨by simp [start, init], by simp [start, init], by simp [start, init],
    by simp [start, init]⟩
  woken := ⟨by simp [start, init], by simp [start, init]⟩
  counted := .inr (by simp [start, init, at_])

theorem at_move (s : System α) (sem : RwSem α) {p c : Pc} (ht : s.pc t ≠ c) (hp : p ≠ c) :
    (⟨sem, update s.pc t p⟩ : System α).at_ c = s.at_ c := by
  rw [at_update, if_neg hp, erase_eq_of_notMem]
  rwa [mem_at]

theorem Sound.enterRead (h : s.Sound) (ht : s.pc t = .idle ∨ s.pc t = .readyRead)
    (hfew : ((s.enter t (s.sem.downRead t) .reading .queuedRead).at_ .reading).card < 2 ^ 31) :
    (s.enter t (s.sem.downRead t) .reading .queuedRead).Sound := by
  obtain ⟨hawake, hreading, hwriting⟩ : (s.pc t ≠ .queuedRead ∧ s.pc t ≠ .queuedWrite) ∧
      s.pc t ≠ .reading ∧ s.pc t ≠ .writing := by
    rcases ht with ht | ht <;> simp [ht]
  unfold enter downRead at hfew ⊢
  by_cases hfree : 0 ≤ s.sem.count.toInt ∧ s.sem.writeWaitQueue.isEmpty
  · simp only [hfree, and_self, if_true] at hfew ⊢
    rw [at_update] at hfew
    have hcounted := h.counted.enterRead hfree.1 (by rwa [mem_at]) hfew
    have hne : s.sem.count + 1 ≠ 0 := by
      intro hzero
      rw [hzero] at hcounted
      have hcard := (hcounted.no_writer (by decide)).1
      rw [card_insert_of_notMem (by rwa [mem_at]),
        show (0 : BitVec 32).toInt = 0 by decide] at hcard
      omega
    refine ⟨h.queued.move rfl rfl hawake (by simp), ⟨fun hzero => absurd hzero hne,
      fun hzero => absurd hzero hne⟩, ?_⟩
    rw [at_update, at_move s _ hwriting (by simp)]
    exact hcounted
  · simp only [hfree, if_false] at hfew ⊢
    have hkeep : ∀ u, s.pc u = .readyWrite → update s.pc t .queuedRead u = .readyWrite := by
      intro u hu
      rw [update_of_ne ?_, hu]
      rintro rfl
      rcases ht with ht | ht <;> simp [ht] at hu
    refine ⟨h.queued.sleepRead hawake, ⟨fun hzero hw => ?_, fun hzero _ => ?_⟩, ?_⟩
    · obtain ⟨u, hu⟩ := h.woken.writer hzero hw
      exact ⟨u, hkeep u hu⟩
    · -- the semaphore is free, so a queued writer has sent the reader to sleep
      have hw : s.sem.writeWaitQueue ≠ [] := by
        intro hw
        apply hfree
        rw [hzero, hw]
        exact ⟨by decide, rfl⟩
      obtain ⟨u, hu⟩ := h.woken.writer hzero hw
      exact ⟨u, .inr (hkeep u hu)⟩
    · rw [at_move s _ hreading (by simp), at_move s _ hwriting (by simp)]
      exact h.counted

theorem Sound.enterWrite (h : s.Sound) (ht : s.pc t = .idle ∨ s.pc t = .readyWrite) :
    (s.enter t (s.sem.downWrite t) .writing .queuedWrite).Sound := by
  obtain ⟨hawake, hreading, hwriting⟩ : (s.pc t ≠ .queuedRead ∧ s.pc t ≠ .queuedWrite) ∧
      s.pc t ≠ .reading ∧ s.pc t ≠ .writing := by
    rcases ht with ht | ht <;> simp [ht]
  unfold enter downWrite
  by_cases hfree : s.sem.count = 0
  · simp only [hfree, if_true]
    have hcounted := h.counted
    rw [hfree] at hcounted
    have hnone := (hcounted.no_writer (by decide)).2
    refine ⟨h.queued.move rfl rfl hawake (by simp), ⟨fun hzero => ?_, fun hzero => ?_⟩, ?_⟩
    · cases hzero
    · cases hzero
    · rw [at_update s _ t _ .writing, hnone, at_move s _ hreading (by simp)]
      exact hcounted.enterWrite
  · simp only [hfree]
    refine ⟨h.queued.sleepWrite hawake, ⟨fun hzero => absurd hzero hfree,
      fun hzero => absurd hzero hfree⟩, ?_⟩
    rw [at_move s _ hreading (by simp), at_move s _ hwriting (by simp)]
    exact h.counted

theorem wakeFirst_sound (hq : s.Queued)
    (hc : CountedBy s.sem.count (s.at_ .reading) (s.at_ .writing)) :
    ((⟨s.sem.wakeFirst.1, s.pc⟩ : System α).wake s.sem.wakeFirst.2).Sound := by
  unfold wakeFirst
  cases hw : s.sem.writeWaitQueue with
  | cons w ws =>
    have hpc : s.pc w = .queuedWrite := by
      rw [← hq.write, hw]
      exact List.mem_cons_self
    simp only [wake, hpc, Pc.woken]
    refine ⟨hq.wakeWriter hw, ⟨fun _ _ => ⟨w, by simp⟩, fun _ _ => ⟨w, by simp⟩⟩, ?_⟩
    rw [at_move s _ (by simp [hpc]) (by simp), at_move s _ (by simp [hpc]) (by simp)]
    exact hc
  | nil =>
    cases hr : s.sem.readWaitQueue with
    | cons w ws =>
      have hpc : s.pc w = .queuedRead := by
        rw [← hq.read, hr]
        exact List.mem_cons_self
      simp only [wake, hpc, Pc.woken]
      have hq' := hq.wakeReader hr
      simp only [hw] at hq'
      refine ⟨hq', ⟨fun _ hne => absurd rfl hne, fun _ _ => ⟨w, by simp⟩⟩, ?_⟩
      rw [at_move s _ (by simp [hpc]) (by simp), at_move s _ (by simp [hpc]) (by simp)]
      exact hc
    | nil => exact ⟨hq, ⟨fun _ hne => absurd hw hne, fun _ hne => absurd hr hne⟩, hc⟩

theorem Sound.leaveRead (h : s.Sound) (ht : s.pc t = .reading) :
    (s.leave t s.sem.upRead).Sound := by
  have hq : (⟨{ s.sem with count := s.sem.count - 1 }, update s.pc t .idle⟩ :
      System α).Queued := h.queued.move rfl rfl (by simp [ht]) (by simp)
  have hc : CountedBy (s.sem.count - 1)
      ((⟨{ s.sem with count := s.sem.count - 1 }, update s.pc t .idle⟩ :
        System α).at_ .reading)
      ((⟨{ s.sem with count := s.sem.count - 1 }, update s.pc t .idle⟩ :
        System α).at_ .writing) := by
    rw [at_update, at_move s _ (by simp [ht]) (by simp)]
    exact h.counted.leaveRead (by rwa [mem_at])
  unfold leave upRead
  dsimp only
  split_ifs with hzero
  · exact wakeFirst_sound hq hc
  · exact ⟨hq, ⟨fun h0 => absurd h0 hzero, fun h0 => absurd h0 hzero⟩, hc⟩

theorem Sound.leaveWrite (h : s.Sound) (ht : s.pc t = .writing) :
    (s.leave t s.sem.upWrite).Sound := by
  obtain ⟨hr, hw⟩ := h.counted.leaveWrite (by rwa [mem_at])
  refine wakeFirst_sound (s := ⟨{ s.sem with count := 0, owner := none }, update s.pc t .idle⟩)
    (h.queued.move rfl rfl (by simp [ht]) (by simp)) (.inr ⟨?_, ?_⟩)
  · rw [at_move s _ (by simp [ht]) (by simp), hr]
    rfl
  · rw [at_update, if_neg (by simp), hw]

theorem Sound.downgrade (h : s.Sound) (ht : s.pc t = .writing) :
    (⟨s.sem.downgradeWrite, update s.pc t .reading⟩ : System α).Sound := by
  obtain ⟨hr, hw⟩ := h.counted.leaveWrite (by rwa [mem_at])
  refine ⟨h.queued.move rfl rfl (by simp [ht]) (by simp), ⟨fun hzero => ?_, fun hzero => ?_⟩,
    .inr ⟨?_, ?_⟩⟩
  · exact absurd hzero (by simp [downgradeWrite])
  · exact absurd hzero (by simp [downgradeWrite])
  · rw [at_update, if_pos rfl, hr, insert_empty_eq]
    rfl
  · rw [at_update, if_neg (by simp), hw]

/-- Fewer than 2 ^ 31 readers after the step. -/
def Few (s : System α) (e : α × Call) : Prop := ((s.step e.1 e.2).at_ .reading).card < 2 ^ 31

theorem Sound.step (h : s.Sound) (t : α) (call : Call) (hfew : s.Few (t, call)) :
    (s.step t call).Sound := by
  unfold Few at hfew
  unfold System.step at hfew ⊢
  cases hpc : s.pc t <;> simp only [hpc] at hfew ⊢
  case idle =>
    cases call
    · exact h.enterRead (.inl hpc) hfew
    · exact h.enterWrite (.inl hpc)
    · exact h
  case queuedRead => exact h
  case queuedWrite => exact h
  case readyRead => exact h.enterRead (.inr hpc) hfew
  case readyWrite => exact h.enterWrite (.inr hpc)
  case reading => exact h.leaveRead hpc
  case writing =>
    cases call
    · exact h.leaveWrite hpc
    · exact h.leaveWrite hpc
    · exact h.downgrade hpc

theorem reaches_sound (h : Run.Reaches Next Few start s) : s.Sound := by
  apply h.invariant _ start_sound
  rintro s ⟨t, call⟩ s' hs hfew rfl
  exact hs.step t call hfew

/-- With fewer than 2 ^ 31 readers at a time, `count` is -1 exactly while one writer and no reader
holds the semaphore, else the number of readers, and a free semaphore with a sleeping thread has a
thread on its way. -/
theorem reaches_count_wakeup {s : System α} (h : Run.Reaches Next Few start s) :
    (s.sem.count.toInt = -1 ↔ (∃! w, s.pc w = .writing) ∧ ∀ t, s.pc t ≠ .reading) ∧
      (s.sem.count.toInt ≠ -1 → s.sem.count.toInt = (s.at_ .reading).card) ∧
      (s.sem.count = 0 → s.sem.readWaitQueue ≠ [] ∨ s.sem.writeWaitQueue ≠ [] →
        ∃ t, s.pc t = .readyRead ∨ s.pc t = .readyWrite) := by
  have hs := reaches_sound h
  refine ⟨⟨fun hcount => ?_, fun ⟨⟨w, hw, _⟩, _⟩ => ?_⟩, fun hcount => ?_, fun hzero hne => ?_⟩
  · rcases hs.counted with ⟨_, ⟨w, hw⟩, hr⟩ | ⟨hcard, _⟩
    · refine ⟨⟨w, ?_, ?_⟩, ?_⟩
      · show s.pc w = .writing
        rw [← mem_at, hw, mem_singleton]
      · intro u hu
        rwa [← mem_at, hw, mem_singleton] at hu
      · intro t ht
        rw [← mem_at, hr] at ht
        exact absurd ht (notMem_empty t)
    · omega
  · rcases hs.counted with ⟨hcount, _⟩ | ⟨_, hnone⟩
    · rw [hcount]
      decide
    · replace hw : s.pc w = .writing := hw
      rw [← mem_at, hnone] at hw
      exact absurd hw (notMem_empty w)
  · rcases hs.counted with ⟨hneg, _⟩ | ⟨hcard, _⟩
    · rw [hneg] at hcount
      exact absurd (by decide) hcount
    · exact hcard
  · rcases hne with hr | hw
    · exact hs.woken.reader hzero hr
    · obtain ⟨t, ht⟩ := hs.woken.writer hzero hw
      exact ⟨t, .inr ht⟩

end holders

theorem reaches_count_wakeup_handover : ∃ s : System (Fin 2),
    s = ((start.step 0 .write).step 1 .read).step 0 .write ∧ s.pc 1 = .readyRead ∧
      (s.sem.count.toInt ≠ -1 → s.sem.count.toInt = (s.at_ .reading).card) := by
  refine ⟨_, rfl, by decide, ?_⟩
  refine (reaches_count_wakeup ?_).2.1
  have h1 : Run.Reaches Next Few (start : System (Fin 2)) (start.step 0 .write) :=
    .single (0, .write) (by unfold Few; decide) rfl
  have h2 : Run.Reaches Next Few (start.step (0 : Fin 2) .write)
      ((start.step 0 .write).step 1 .read) := .single (1, .read) (by unfold Few; decide) rfl
  exact (h1.trans h2).trans (.single (0, .write) (by unfold Few; decide) rfl)

/-- The first `n` of `N` threads read. -/
def readFirst (N n : ℕ) : System (Fin N) :=
  ⟨⟨BitVec.ofNat 32 n, none, [], []⟩, fun t => if t.val < n then .reading else .idle⟩

theorem readFirst_step {N n : ℕ} (hn : n < N) (hfew : n < 2 ^ 31) :
    (readFirst N n).step ⟨n, hn⟩ .read = readFirst N (n + 1) := by
  have hnonneg : 0 ≤ (BitVec.ofNat 32 n).toInt := by
    rw [BitVec.toInt_ofNat', Int.bmod_def]
    omega
  have hpc : update (fun t : Fin N => if t.val < n then Pc.reading else .idle) ⟨n, hn⟩
      .reading = fun t => if t.val < n + 1 then Pc.reading else .idle := by
    funext t
    by_cases ht : t = ⟨n, hn⟩
    · subst ht
      simp
    · have hne : t.val ≠ n := fun h => ht (Fin.ext h)
      rw [update_of_ne ht]
      congr 1
      rw [eq_iff_iff]
      omega
  simp only [readFirst, step, lt_irrefl, enter, downRead, hnonneg, List.isEmpty_nil,
    and_self, if_true, hpc, BitVec.ofNat_add]
  rfl

theorem reaches_readFirst {N n : ℕ} (hn : n ≤ N) (hfew : n ≤ 2 ^ 31) :
    Run.Reaches Next (fun _ _ => True) start (readFirst N n) := by
  induction n with
  | zero => exact .refl _
  | succ n ih =>
    refine (ih (by omega) (by omega)).trans (.single (⟨n, by omega⟩, .read) trivial ?_)
    exact (readFirst_step (by omega) (by omega)).symm

/-- With 2 ^ 31 readers the `int` has wrapped to a negative number. -/
theorem count_overflows : ∃ s : System (Fin (2 ^ 31)),
    Run.Reaches Next (fun _ _ => True) start s ∧ s.sem.count.toInt ≠ -1 ∧
      s.sem.count.toInt ≠ (s.at_ .reading).card := by
  refine ⟨readFirst _ (2 ^ 31), reaches_readFirst le_rfl le_rfl, ?_, ?_⟩
  · exact show (BitVec.ofNat 32 (2 ^ 31)).toInt ≠ -1 by decide
  · have hneg : (BitVec.ofNat 32 (2 ^ 31)).toInt < 0 := by decide
    exact ne_of_lt (hneg.trans_le (Int.natCast_nonneg _))

end System
end RwSem
end Doppio
