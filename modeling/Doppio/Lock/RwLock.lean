import Mathlib.Tactic
import Doppio.Library.Run

/-! The reader-writer spin lock of `include/kernel/lock.h`, one step for each access to the shared
words. The `continue` of a `do … while` loop goes on to its test, so a reader that has seen the
writer's bit still runs its compare-and-swap. -/
namespace Doppio
open Function
open Finset

structure RwLock where
  val : BitVec 32
  writeWanted : BitVec 32
  deriving DecidableEq

namespace RwLock

/-- Where an agent stands in the four calls. -/
inductive Pc where
  | idle
  | readLoad
  | readWanted (expected : BitVec 32)
  | readCas (expected : BitVec 32)
  | reading
  | writeWant
  | writeLoad
  | writeCas
  | writeClear
  | writing
  deriving DecidableEq

inductive Call where
  | readLock
  | writeLock
  deriving DecidableEq

def init : RwLock := ⟨0, 0⟩

/-- The next access of an agent: an idle one starts a call, a holder releases. -/
def step (l : RwLock) (call : Call) : Pc → RwLock × Pc
  | .idle =>
    match call with
    | .readLock => (l, .readLoad)
    | .writeLock => (l, .writeWant)
  -- `expected = lock->val`; with the writer's bit set, `continue` leads to the CAS
  | .readLoad => (l, if l.val.msb then .readCas l.val else .readWanted l.val)
  -- a wanted write makes the reader pause, and `continue` leads to the CAS again
  | .readWanted expected =>
    (l, if l.writeWanted ≠ 0 then .readCas expected else .readCas expected)
  | .readCas expected =>
    if l.val = expected then ({ l with val := expected + 1 }, .reading) else (l, .readLoad)
  | .reading => ({ l with val := l.val - 1 }, .idle)
  | .writeWant => ({ l with writeWanted := 1 }, .writeLoad)
  -- the value read here only decides whether the writer pauses
  | .writeLoad => (l, .writeCas)
  | .writeCas =>
    if l.val = 0 then ({ l with val := 0x80000000 }, .writeClear) else (l, .writeLoad)
  | .writeClear => ({ l with writeWanted := 0 }, .writing)
  | .writing => ({ l with val := 0 }, .idle)

def Pc.holdsRead : Pc → Bool
  | .reading => true
  | _ => false

def Pc.holdsWrite : Pc → Bool
  | .writeClear => true
  | .writing => true
  | _ => false

structure System (α : Type*) where
  lock : RwLock
  pc : α → Pc

namespace System
variable {α : Type*}

def start : System α := ⟨init, fun _ => .idle⟩

section readers
variable [Fintype α]

def readers (s : System α) : Finset α := Finset.univ.filter fun a => (s.pc a).holdsRead

theorem mem_readers {s : System α} {a : α} : a ∈ s.readers ↔ (s.pc a).holdsRead := by
  simp [readers]

/-- A writer excludes all others, and `val` tells who holds the lock. -/
structure Exclusive (s : System α) : Prop where
  one_writer : ∀ a b, (s.pc a).holdsWrite → (s.pc b).holdsWrite → a = b
  no_reader : ∀ a b, (s.pc a).holdsWrite → ¬ (s.pc b).holdsRead
  val_writer : ∀ a, (s.pc a).holdsWrite → s.lock.val = 0x80000000
  val_readers : (∀ a, ¬ (s.pc a).holdsWrite) → s.lock.val.toNat = s.readers.card

theorem exclusive_of_no_writer {s : System α} (hno : ∀ a, ¬ (s.pc a).holdsWrite)
    (hval : s.lock.val.toNat = s.readers.card) : s.Exclusive := by
  constructor
  · intro a b ha
    exact absurd ha (hno a)
  · intro a b ha
    exact absurd ha (hno a)
  · intro a ha
    exact absurd ha (hno a)
  · intro _
    exact hval

theorem start_exclusive : (start : System α).Exclusive := by
  apply exclusive_of_no_writer <;> simp [start, init, Pc.holdsWrite, Pc.holdsRead, readers]

theorem Exclusive.congr {s s' : System α} (h : s.Exclusive) (hval : s'.lock.val = s.lock.val)
    (hr : ∀ b, (s'.pc b).holdsRead = (s.pc b).holdsRead)
    (hw : ∀ b, (s'.pc b).holdsWrite = (s.pc b).holdsWrite) : s'.Exclusive := by
  constructor
  · intro a b
    rw [hw, hw]
    exact h.one_writer a b
  · intro a b
    rw [hw, hr]
    exact h.no_reader a b
  · intro a
    rw [hw, hval]
    exact h.val_writer a
  · intro hno
    have hreaders : s'.readers = s.readers := by simp only [readers, hr]
    rw [hval, hreaders]
    apply h.val_readers
    intro a
    rw [← hw]
    exact hno a

end readers

variable [DecidableEq α]

def step (s : System α) (a : α) (call : Call) : System α :=
  ⟨(s.lock.step call (s.pc a)).1, update s.pc a (s.lock.step call (s.pc a)).2⟩

section
variable (s : System α)

def Next (e : α × Call) (s' : System α) : Prop := s' = s.step e.1 e.2

/-- No reader's compare-and-swap succeeds on a value with the writer's bit. -/
def BitClear (e : α × Call) : Prop :=
  ∀ expected, s.pc e.1 = .readCas expected → s.lock.val = expected → expected.msb = false

def exec (es : List (α × Call)) : System α := es.foldl (fun s e => s.step e.1 e.2) s

theorem reaches_exec (es : List (α × Call)) :
    Run.Reaches Next (fun _ _ => True) s (s.exec es) := by
  induction es generalizing s with
  | nil => exact .refl s
  | cons e es ih => exact (Run.Reaches.single e trivial rfl).trans (ih (s.step e.1 e.2))

end

theorem no_writer_update {s : System α} {a : α} {p : Pc} (hp : p.holdsWrite = false)
    (hno : ∀ b, b ≠ a → ¬ (s.pc b).holdsWrite) :
    ∀ b, ¬ (update s.pc a p b).holdsWrite := by
  intro b
  by_cases hb : b = a
  · subst hb
    simp [hp]
  · rw [update_of_ne hb]
    exact hno b hb

variable [Fintype α] {s : System α}

section
variable (h : s.Exclusive)
include h

theorem Exclusive.move {l : RwLock} {a : α} {p : Pc} (hval : l.val = s.lock.val)
    (hr : p.holdsRead = (s.pc a).holdsRead) (hw : p.holdsWrite = (s.pc a).holdsWrite) :
    (⟨l, update s.pc a p⟩ : System α).Exclusive := by
  apply h.congr hval
  · intro b
    by_cases hb : b = a
    · subst hb
      simpa using hr
    · simp [hb]
  · intro b
    by_cases hb : b = a
    · subst hb
      simpa using hw
    · simp [hb]

theorem Exclusive.enterRead {a : α} (ha : (s.pc a).holdsRead = false)
    (hbit : s.lock.val.msb = false) :
    (⟨{ s.lock with val := s.lock.val + 1 }, update s.pc a .reading⟩ :
      System α).Exclusive := by
  have hno : ∀ b, ¬ (s.pc b).holdsWrite := by
    intro b hb
    rw [h.val_writer b hb] at hbit
    cases hbit
  apply exclusive_of_no_writer (no_writer_update rfl fun b _ => hno b)
  have hreaders : (⟨{ s.lock with val := s.lock.val + 1 }, update s.pc a .reading⟩ :
      System α).readers = insert a s.readers := by
    ext b
    rw [mem_insert, mem_readers, mem_readers]
    by_cases hb : b = a <;> simp [hb, Pc.holdsRead]
  have hcard : (insert a s.readers).card = s.readers.card + 1 := by
    apply card_insert_of_notMem
    simp [mem_readers, ha]
  rw [hreaders, hcard, ← h.val_readers hno]
  have hlt : s.lock.val.toNat < 2 ^ 31 := by
    rw [BitVec.msb_eq_decide] at hbit
    simpa using hbit
  change (s.lock.val.toNat + 1) % 2 ^ 32 = _
  omega

theorem Exclusive.leaveRead {a : α} (ha : (s.pc a).holdsRead) :
    (⟨{ s.lock with val := s.lock.val - 1 }, update s.pc a .idle⟩ :
      System α).Exclusive := by
  have hno : ∀ b, ¬ (s.pc b).holdsWrite := fun b hb => h.no_reader b a hb ha
  apply exclusive_of_no_writer (no_writer_update rfl fun b _ => hno b)
  have hreaders : (⟨{ s.lock with val := s.lock.val - 1 }, update s.pc a .idle⟩ :
      System α).readers = s.readers.erase a := by
    ext b
    rw [mem_erase, mem_readers, mem_readers]
    by_cases hb : b = a <;> simp [hb, Pc.holdsRead]
  have hmem : a ∈ s.readers := mem_readers.mpr ha
  have hpos := Finset.card_pos.mpr ⟨a, hmem⟩
  rw [hreaders, card_erase_of_mem hmem, ← h.val_readers hno]
  rw [← h.val_readers hno] at hpos
  change (2 ^ 32 - 1 + s.lock.val.toNat) % 2 ^ 32 = _
  omega

theorem Exclusive.enterWrite {a : α} (hval : s.lock.val = 0) :
    (⟨{ s.lock with val := 0x80000000 }, update s.pc a .writeClear⟩ :
      System α).Exclusive := by
  have hno : ∀ b, ¬ (s.pc b).holdsWrite := by
    intro b hb
    simp [h.val_writer b hb] at hval
  have hempty : s.readers = ∅ := by
    rw [← card_eq_zero, ← h.val_readers hno, hval]
    rfl
  have hread : ∀ b, ¬ (s.pc b).holdsRead := by
    intro b hb
    have := mem_readers.mpr hb
    rw [hempty] at this
    exact absurd this (notMem_empty b)
  have honly : ∀ b, (update s.pc a .writeClear b).holdsWrite → b = a := by
    intro b hb
    by_contra hba
    rw [update_of_ne hba] at hb
    exact hno b hb
  constructor
  · intro b c hb hc
    rw [honly b hb, honly c hc]
  · intro b c _
    by_cases hc : c = a
    · subst hc
      simp [Pc.holdsRead]
    · simpa [hc] using hread c
  · intro _ _
    rfl
  · intro hnone
    exact absurd (by simp [Pc.holdsWrite]) (hnone a)

theorem Exclusive.leaveWrite {a : α} (ha : (s.pc a).holdsWrite) :
    (⟨{ s.lock with val := 0 }, update s.pc a .idle⟩ : System α).Exclusive := by
  have hno : ∀ b, b ≠ a → ¬ (s.pc b).holdsWrite := fun b hb hb' => hb (h.one_writer b a hb' ha)
  apply exclusive_of_no_writer (no_writer_update rfl hno)
  symm
  change Finset.card _ = 0
  rw [card_eq_zero, eq_empty_iff_forall_notMem]
  intro b
  rw [mem_readers]
  by_cases hb : b = a
  · subst hb
    simp [Pc.holdsRead]
  · simpa [hb] using h.no_reader a b ha

theorem Exclusive.step (a : α) (call : Call) (hc : s.BitClear (a, call)) :
    (s.step a call).Exclusive := by
  unfold System.step
  cases hp : s.pc a with
  | idle => cases call <;> exact h.move rfl (by rw [hp]; rfl) (by rw [hp]; rfl)
  | readLoad =>
    apply h.move rfl
    all_goals
      rw [hp]
      simp only [RwLock.step]
      split_ifs <;> rfl
  | readWanted expected =>
    apply h.move rfl
    all_goals
      rw [hp]
      simp [RwLock.step, Pc.holdsRead, Pc.holdsWrite]
  | readCas expected =>
    simp only [RwLock.step]
    split_ifs with hval
    · have hbit := hc expected hp hval
      subst hval
      exact h.enterRead (by rw [hp]; rfl) hbit
    · exact h.move rfl (by rw [hp]; rfl) (by rw [hp]; rfl)
  | reading => exact h.leaveRead (by rw [hp]; rfl)
  | writeWant => exact h.move rfl (by rw [hp]; rfl) (by rw [hp]; rfl)
  | writeLoad => exact h.move rfl (by rw [hp]; rfl) (by rw [hp]; rfl)
  | writeCas =>
    simp only [RwLock.step]
    split_ifs with hval
    · exact h.enterWrite hval
    · exact h.move rfl (by rw [hp]; rfl) (by rw [hp]; rfl)
  | writeClear => exact h.move rfl (by rw [hp]; rfl) (by rw [hp]; rfl)
  | writing => exact h.leaveWrite (by rw [hp]; rfl)

end

/-- While readers keep off a value with the writer's bit, a writer excludes all others and `val`
tells who holds the lock. -/
theorem reaches_exclusive (s : System α) (h : Run.Reaches Next BitClear start s) :
    s.Exclusive := by
  apply h.invariant _ start_exclusive
  rintro s ⟨a, call⟩ s' hs hc rfl
  exact hs.step a call hc

/-- A reader that loads the writer's value enters beside it. -/
theorem reader_enters_beside_writer :
    ∃ s : System (Fin 2), Run.Reaches Next (fun _ _ => True) start s ∧
      (s.pc 0).holdsWrite ∧ (s.pc 1).holdsRead ∧ s.lock.val = 0x80000001 := by
  refine ⟨_, reaches_exec start [(0, .writeLock), (0, .writeLock), (0, .writeLock),
    (0, .writeLock), (0, .writeLock), (1, .readLock), (1, .readLock), (1, .readLock)], ?_⟩
  decide

theorem reaches_exclusive_two_readers : ∃ s : System (Fin 2), Run.Reaches Next BitClear start s ∧
    (s.pc 0).holdsRead ∧ (s.pc 1).holdsRead ∧ s.Exclusive := by
  have hrun : Run.Reaches Next BitClear (start : System (Fin 2))
      (start.exec (.replicate 4 (1, .readLock) ++ .replicate 4 (0, .readLock))) := by
    iterate 4
      apply Run.Reaches.trans (.single (1, .readLock)
        (by simp [BitClear, start, step, RwLock.step, init]) rfl)
    iterate 4
      apply Run.Reaches.trans (.single (0, .readLock)
        (by simp [BitClear, start, step, RwLock.step, init]) rfl)
    exact .refl _
  exact ⟨_, hrun, by decide, by decide, reaches_exclusive _ hrun⟩

end System
end RwLock
end Doppio
