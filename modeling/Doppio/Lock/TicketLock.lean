import Mathlib.Tactic
import Doppio.Library.Run

/-! The ticket spin lock of `kernel/lib/lock.c`, one step for each access to the shared words, with
the history of tickets and acquisitions. -/
namespace Doppio
open Function Nat
open List

structure SpinLock where
  nowServing : BitVec 32
  nextTicket : BitVec 32
  holderCpu : ℤ
  deriving DecidableEq

namespace SpinLock

/-- Where a contender stands in `spin_lock`, `spin_trylock` or `spin_unlock`. -/
inductive Pc where
  | idle
  | spinning (ticket : BitVec 32)
  | acquired
  | holding
  | unlockLoad
  | unlockStore (serving : BitVec 32)
  | tryTest (serving : BitVec 32)
  | tryCas (serving : BitVec 32)
  deriving DecidableEq

inductive Call where
  | spinLock
  | spinTrylock
  deriving DecidableEq

def init : SpinLock := ⟨0, 0, -1⟩

/-- The next access of a contender on `cpu`: an idle one starts a call, a holder unlocks. -/
def step (l : SpinLock) (cpu : ℤ) (call : Call) : Pc → SpinLock × Pc
  | .idle =>
    match call with
    | .spinLock => ({ l with nextTicket := l.nextTicket + 1 }, .spinning l.nextTicket)
    | .spinTrylock => (l, .tryTest l.nowServing)
  | .spinning ticket => (l, if l.nowServing ≠ ticket then .spinning ticket else .acquired)
  | .acquired => ({ l with holderCpu := cpu }, .holding)
  | .holding => ({ l with holderCpu := -1 }, .unlockLoad)
  -- `now_serving++` on a volatile word: a load and a store
  | .unlockLoad => (l, .unlockStore l.nowServing)
  | .unlockStore serving => ({ l with nowServing := serving + 1 }, .idle)
  | .tryTest serving => (l, if l.nextTicket ≠ serving then .idle else .tryCas serving)
  | .tryCas serving =>
    if l.nextTicket = serving then ({ l with nextTicket := serving + 1 }, .acquired)
    else (l, .idle)

/-- From the moment the lock is won until `now_serving` is advanced. -/
def Pc.holds : Pc → Bool
  | .acquired | .holding | .unlockLoad | .unlockStore _ => true
  | _ => false

def Pc.hasTicket : Pc → Bool
  | .spinning _ => true
  | p => p.holds

/-- Who drew which ticket and who won the lock, in order; how many holders have left; each
contender's ticket; and how many had left when a contender in `spin_trylock` read `now_serving`. -/
structure History (α : Type*) where
  drawn : List α
  won : List α
  served : ℕ
  ticketNo : α → ℕ
  seen : α → ℕ

structure System (α : Type*) where
  lock : SpinLock
  pc : α → Pc
  hist : History α

variable {α : Type*} [DecidableEq α]

/-- The history after a move of `a`. -/
def History.record (h : History α) (a : α) : Pc → Pc → History α
  | .idle, .spinning _ =>
    { h with drawn := h.drawn ++ [a], ticketNo := update h.ticketNo a h.drawn.length }
  | .idle, .tryTest _ => { h with seen := update h.seen a h.served }
  | .spinning _, .acquired => { h with won := h.won ++ [a] }
  | .tryCas _, .acquired =>
    { h with
      drawn := h.drawn ++ [a]
      won := h.won ++ [a]
      ticketNo := update h.ticketNo a h.drawn.length }
  | .unlockStore _, .idle => { h with served := h.served + 1 }
  | _, _ => h

namespace System

def start : System α := ⟨init, fun _ => .idle, ⟨[], [], 0, fun _ => 0, fun _ => 0⟩⟩

def step (s : System α) (a : α) (cpu : ℤ) (call : Call) : System α where
  lock := (s.lock.step cpu call (s.pc a)).1
  pc := update s.pc a (s.lock.step cpu call (s.pc a)).2
  hist := s.hist.record a (s.pc a) (s.lock.step cpu call (s.pc a)).2

def Next (s : System α) (e : α × ℤ × Call) (s' : System α) : Prop := s' = s.step e.1 e.2.1 e.2.2

/-- No `spin_trylock` succeeds `2 ^ 32` or more tickets after the one served when it read
`now_serving`. -/
def InWindow (s : System α) (e : α × ℤ × Call) : Prop :=
  ∀ serving, s.pc e.1 = .tryCas serving → s.lock.nextTicket = serving →
    s.hist.drawn.length < s.hist.seen e.1 + 2 ^ 32

/-- Tickets count modulo `2 ^ 32`, the pending ones belong to those that wait or hold, and the lock
was won in their order. -/
structure Inv (s : System α) : Prop where
  next : s.lock.nextTicket = BitVec.ofNat 32 s.hist.drawn.length
  now : s.lock.nowServing = BitVec.ofNat 32 s.hist.served
  served_le : s.hist.served ≤ s.hist.drawn.length
  ticket : ∀ a, (s.pc a).hasTicket →
    s.hist.served ≤ s.hist.ticketNo a ∧ s.hist.drawn[s.hist.ticketNo a]? = some a
  pending : ∀ i a, s.hist.served ≤ i → s.hist.drawn[i]? = some a →
    (s.pc a).hasTicket ∧ s.hist.ticketNo a = i
  spinning : ∀ a t, s.pc a = .spinning t → t = BitVec.ofNat 32 (s.hist.ticketNo a)
  holder : ∀ a, (s.pc a).holds → s.hist.ticketNo a = s.hist.served
  won_free : (∀ a, ¬ (s.pc a).holds) → s.hist.won = s.hist.drawn.take s.hist.served
  won_held : ∀ a, (s.pc a).holds → s.hist.won = s.hist.drawn.take (s.hist.served + 1)
  tried : ∀ a v, s.pc a = .tryTest v ∨ s.pc a = .tryCas v →
    v = BitVec.ofNat 32 (s.hist.seen a) ∧ s.hist.seen a ≤ s.hist.served
  storing : ∀ a v, s.pc a = .unlockStore v → v = s.lock.nowServing

omit [DecidableEq α] in
theorem start_inv : (start : System α).Inv := by
  constructor <;> simp [start, init, Pc.holds, Pc.hasTicket]

theorem ofNat_succ (n : ℕ) : BitVec.ofNat 32 (n + 1) = BitVec.ofNat 32 n + 1 := by
  rw [BitVec.ofNat_add]
  rfl

theorem eq_of_ofNat_eq {m n : ℕ} (h : BitVec.ofNat 32 m = BitVec.ofNat 32 n) (hle : m ≤ n)
    (hlt : n < m + 2 ^ 32) : n = m := by
  have hmod : m % 2 ^ 32 = n % 2 ^ 32 := by simpa using congrArg BitVec.toNat h
  omega

theorem Pc.hasTicket_of_holds {p : Pc} (h : p.holds) : p.hasTicket := by
  cases p <;> first | rfl | exact h

variable {s : System α} {a : α}

omit [DecidableEq α] in
theorem Inv.one_holder (h : s.Inv) {b : α} (ha : (s.pc a).holds) (hb : (s.pc b).holds) :
    a = b := by
  have hda := (h.ticket a (Pc.hasTicket_of_holds ha)).2
  have hdb := (h.ticket b (Pc.hasTicket_of_holds hb)).2
  rw [h.holder a ha] at hda
  rw [h.holder b hb, hda] at hdb
  exact Option.some.inj hdb

omit [DecidableEq α] in
theorem Inv.served_lt (h : s.Inv) (ha : (s.pc a).holds) :
    s.hist.served < s.hist.drawn.length := by
  have hd := (h.ticket a (Pc.hasTicket_of_holds ha)).2
  rw [h.holder a ha] at hd
  exact (List.getElem?_eq_some_iff.mp hd).1

theorem update_pc_eq {β : Type*} {pc : α → Pc} {p : Pc} {f : Pc → β}
    (h : f p = f (pc a)) (b : α) : f (update pc a p b) = f (pc b) := by
  by_cases hb : b = a
  · subst hb
    simpa using h
  · simp [hb]

section
variable (h : s.Inv)
include h

theorem Inv.move {l : SpinLock} {p : Pc}
    (hnow : l.nowServing = s.lock.nowServing) (hnext : l.nextTicket = s.lock.nextTicket)
    (ht : p.hasTicket = (s.pc a).hasTicket) (hh : p.holds = (s.pc a).holds)
    (hspin : ∀ t, p = .spinning t → s.pc a = .spinning t)
    (htry : ∀ v, p = .tryTest v ∨ p = .tryCas v →
      v = BitVec.ofNat 32 (s.hist.seen a) ∧ s.hist.seen a ≤ s.hist.served)
    (hstore : ∀ v, p = .unlockStore v → v = s.lock.nowServing) :
    (⟨l, update s.pc a p, s.hist⟩ : System α).Inv := by
  constructor
  · exact hnext.trans h.next
  · exact hnow.trans h.now
  · exact h.served_le
  · intro b hb
    rw [update_pc_eq ht] at hb
    exact h.ticket b hb
  · intro i b hi hd
    rw [update_pc_eq ht]
    exact h.pending i b hi hd
  · intro b t hb
    by_cases hba : b = a
    · subst hba
      exact h.spinning b t (hspin t (by simpa using hb))
    · exact h.spinning b t (by simpa [hba] using hb)
  · intro b hb
    rw [update_pc_eq hh] at hb
    exact h.holder b hb
  · intro hno
    apply h.won_free
    intro b
    rw [← update_pc_eq hh b]
    exact hno b
  · intro b hb
    rw [update_pc_eq hh] at hb
    exact h.won_held b hb
  · intro b v hb
    by_cases hba : b = a
    · subst hba
      exact htry v (by simpa using hb)
    · exact h.tried b v (by simpa [hba] using hb)
  · intro b v hb
    rw [hnow]
    by_cases hba : b = a
    · subst hba
      exact hstore v (by simpa using hb)
    · exact h.storing b v (by simpa [hba] using hb)

theorem Inv.see (ha : s.pc a = .idle) :
    (⟨s.lock, update s.pc a (.tryTest s.lock.nowServing),
      { s.hist with seen := update s.hist.seen a s.hist.served }⟩ : System α).Inv := by
  have hseen : ({ s with hist := { s.hist with
      seen := update s.hist.seen a s.hist.served } } : System α).Inv := by
    refine { h with tried := fun b v hb => ?_ }
    have hba : b ≠ a := by
      rintro rfl
      rw [ha] at hb
      simp at hb
    simpa [hba] using h.tried b v hb
  apply hseen.move rfl rfl (by rw [ha]; rfl) (by rw [ha]; rfl) (by simp)
  · intro v hv
    have hv' : v = s.lock.nowServing := by simpa [eq_comm] using hv
    simp [hv', h.now]
  · simp

theorem Inv.draw (ha : (s.pc a).hasTicket = false) :
    (⟨{ s.lock with nextTicket := s.lock.nextTicket + 1 },
      update s.pc a (.spinning s.lock.nextTicket), { s.hist with
        drawn := s.hist.drawn ++ [a]
        ticketNo := update s.hist.ticketNo a s.hist.drawn.length }⟩ : System α).Inv := by
  have hne (b : α) (hb : (s.pc b).hasTicket) : b ≠ a := by
    rintro rfl
    rw [ha] at hb
    exact Bool.false_ne_true hb
  have hh : (Pc.spinning s.lock.nextTicket).holds = (s.pc a).holds := by
    symm
    apply Bool.eq_false_of_not_eq_true
    intro hb
    exact hne a (Pc.hasTicket_of_holds hb) rfl
  constructor
  · rw [length_append, length_singleton, ofNat_succ, h.next]
  · exact h.now
  · rw [length_append]
    exact le_add_right_of_le h.served_le
  · intro b hb
    by_cases hba : b = a
    · subst hba
      simpa using h.served_le
    · obtain ⟨h1, h2⟩ := h.ticket b (by simpa [hba] using hb)
      simp [hba, h1, List.getElem?_append_left (List.getElem?_eq_some_iff.mp h2).1, h2]
  · intro i b hi hd
    rcases lt_or_ge i s.hist.drawn.length with hlt | hge
    · rw [List.getElem?_append_left hlt] at hd
      obtain ⟨h1, h2⟩ := h.pending i b hi hd
      simp [hne b h1, h1, h2]
    · rw [List.getElem?_append_right hge] at hd
      obtain ⟨h0, rfl⟩ : i - s.hist.drawn.length = 0 ∧ a = b := by
        rcases hn : i - s.hist.drawn.length with - | n
        · simpa [hn] using hd
        · simp [hn] at hd
      simp [Pc.hasTicket]
      omega
  · intro b t hb
    by_cases hba : b = a
    · subst hba
      have ht : s.lock.nextTicket = t := by simpa using hb
      simpa [← ht] using h.next
    · simpa [hba] using h.spinning b t (by simpa [hba] using hb)
  · intro b hb
    rw [update_pc_eq hh] at hb
    simpa [hne b (Pc.hasTicket_of_holds hb)] using h.holder b hb
  · intro hno
    rw [take_append_of_le_length h.served_le]
    apply h.won_free
    intro b
    rw [← update_pc_eq hh b]
    exact hno b
  · intro b hb
    rw [update_pc_eq hh] at hb
    rw [take_append_of_le_length (h.served_lt hb)]
    exact h.won_held b hb
  · intro b v hb
    by_cases hba : b = a
    · subst hba
      simp at hb
    · exact h.tried b v (by simpa [hba] using hb)
  · intro b v hb
    by_cases hba : b = a
    · subst hba
      simp at hb
    · exact h.storing b v (by simpa [hba] using hb)

theorem Inv.win (hlt : s.hist.drawn.length < s.hist.served + 2 ^ 32)
    (ha : s.pc a = .spinning s.lock.nowServing) :
    (⟨s.lock, update s.pc a .acquired, { s.hist with won := s.hist.won ++ [a] }⟩ :
      System α).Inv := by
  have ht : Pc.acquired.hasTicket = (s.pc a).hasTicket := by rw [ha]; rfl
  obtain ⟨hle, hd⟩ := h.ticket a (by rw [ha]; rfl)
  have hno : s.hist.ticketNo a = s.hist.served := by
    apply eq_of_ofNat_eq _ hle
    · exact (List.getElem?_eq_some_iff.mp hd).1.trans hlt
    · rw [← h.now]
      exact h.spinning a _ ha
  rw [hno] at hd
  -- the ticket being served is the contender's own, so nobody else holds the lock
  have hfree : ∀ b, ¬ (s.pc b).holds := by
    intro b hb
    have hdb := (h.ticket b (Pc.hasTicket_of_holds hb)).2
    rw [h.holder b hb, hd] at hdb
    rw [← Option.some.inj hdb, ha] at hb
    exact Bool.false_ne_true hb
  have honly : ∀ b, (update s.pc a .acquired b).holds → b = a := by
    intro b hb
    by_contra hba
    rw [update_of_ne hba] at hb
    exact hfree b hb
  constructor
  · exact h.next
  · exact h.now
  · exact h.served_le
  · intro b hb
    rw [update_pc_eq ht] at hb
    exact h.ticket b hb
  · intro i b hi hdi
    rw [update_pc_eq ht]
    exact h.pending i b hi hdi
  · intro b t hb
    by_cases hba : b = a
    · subst hba
      simp at hb
    · exact h.spinning b t (by simpa [hba] using hb)
  · intro b hb
    rw [honly b hb]
    exact hno
  · intro hnone
    exact absurd (by simp [Pc.holds]) (hnone a)
  · intro b _
    rw [take_add_one, ← h.won_free hfree]
    simp [hd]
  · intro b v hb
    by_cases hba : b = a
    · subst hba
      simp at hb
    · exact h.tried b v (by simpa [hba] using hb)
  · intro b v hb
    by_cases hba : b = a
    · subst hba
      simp at hb
    · exact h.storing b v (by simpa [hba] using hb)

/-- A `spin_trylock` in its window draws and wins the ticket that is being served. -/
theorem Inv.tryWin (hlt : s.hist.drawn.length < s.hist.served + 2 ^ 32)
    (ha : s.pc a = .tryCas s.lock.nextTicket) (hw : s.hist.drawn.length < s.hist.seen a + 2 ^ 32) :
    (⟨{ s.lock with nextTicket := s.lock.nextTicket + 1 }, update s.pc a .acquired, { s.hist with
        drawn := s.hist.drawn ++ [a]
        won := s.hist.won ++ [a]
        ticketNo := update s.hist.ticketNo a s.hist.drawn.length }⟩ : System α).Inv := by
  obtain ⟨hv, hseen⟩ := h.tried a _ (.inr ha)
  have hle := h.served_le
  have hfree : s.hist.drawn.length = s.hist.seen a := by
    apply eq_of_ofNat_eq _ (hseen.trans hle) hw
    rw [← hv, h.next]
  have hserving : s.lock.nextTicket = s.lock.nowServing := by
    rw [h.next, h.now]
    congr 1
    omega
  have hdraw := h.draw (a := a) (by rw [ha]; rfl)
  have hwin := hdraw.win (a := a) (by simp; omega) (by simp [hserving])
  rw [update_idem] at hwin
  exact hwin

theorem Inv.leave (ha : s.pc a = .unlockStore s.lock.nowServing) :
    (⟨{ s.lock with nowServing := s.lock.nowServing + 1 }, update s.pc a .idle,
      { s.hist with served := s.hist.served + 1 }⟩ : System α).Inv := by
  have hh : (s.pc a).holds := by rw [ha]; rfl
  have hno := h.holder a hh
  have hfree : ∀ b, ¬ (update s.pc a .idle b).holds := by
    intro b hb
    by_cases hba : b = a
    · subst hba
      simp [Pc.holds] at hb
    · rw [update_of_ne hba] at hb
      exact hba (h.one_holder hb hh)
  have hne (b : α) (hb : (update s.pc a .idle b).hasTicket) : b ≠ a := by
    rintro rfl
    simp [Pc.hasTicket, Pc.holds] at hb
  constructor
  · exact h.next
  · rw [h.now, ofNat_succ]
  · exact h.served_lt hh
  · intro b hb
    have hba := hne b hb
    obtain ⟨h1, h2⟩ := h.ticket b (by simpa [hba] using hb)
    refine ⟨lt_of_le_of_ne h1 fun he => ?_, h2⟩
    have hda := (h.ticket a (Pc.hasTicket_of_holds hh)).2
    rw [hno, he, h2] at hda
    exact hba (Option.some.inj hda)
  · intro i b hi hd
    obtain ⟨h1, h2⟩ := h.pending i b (le_of_succ_le hi) hd
    have hba : b ≠ a := by
      rintro rfl
      change s.hist.served + 1 ≤ i at hi
      omega
    simpa [hba] using ⟨h1, h2⟩
  · intro b t hb
    by_cases hba : b = a
    · subst hba
      simp at hb
    · exact h.spinning b t (by simpa [hba] using hb)
  · intro b hb
    exact absurd hb (hfree b)
  · intro _
    exact h.won_held a hh
  · intro b hb
    exact absurd hb (hfree b)
  · intro b v hb
    by_cases hba : b = a
    · subst hba
      simp at hb
    · obtain ⟨h1, h2⟩ := h.tried b v (by simpa [hba] using hb)
      exact ⟨h1, le_succ_of_le h2⟩
  · intro b v hb
    by_cases hba : b = a
    · subst hba
      simp at hb
    · have hb' : s.pc b = .unlockStore v := by simpa [hba] using hb
      exact absurd (h.one_holder (a := b) (b := a) (by rw [hb']; rfl) hh) hba

end

omit [DecidableEq α] in
theorem Inv.pending_lt [Fintype α] (h : s.Inv) (hcard : Fintype.card α < 2 ^ 32) :
    s.hist.drawn.length < s.hist.served + 2 ^ 32 := by
  let holderOf (i : Fin (s.hist.drawn.length - s.hist.served)) : α :=
    s.hist.drawn[s.hist.served + i]
  have hpend (i : Fin (s.hist.drawn.length - s.hist.served)) :=
    h.pending (s.hist.served + i) (holderOf i) (le_add_right _ _)
      (List.getElem?_eq_getElem (by omega))
  have hinj : Function.Injective holderOf := by
    intro i j hij
    have hi := hpend i
    have hj := hpend j
    have he : s.hist.served + i.1 = s.hist.served + j.1 := by
      rw [← hi.2, ← hj.2]
      exact congrArg s.hist.ticketNo hij
    exact Fin.ext (add_left_cancel he)
  have := Fintype.card_le_of_injective _ hinj
  rw [Fintype.card_fin] at this
  omega

theorem Inv.step (h : s.Inv) (hlt : s.hist.drawn.length < s.hist.served + 2 ^ 32) (a : α)
    (cpu : ℤ) (call : Call) (hw : s.InWindow (a, cpu, call)) : (s.step a cpu call).Inv := by
  unfold System.step
  cases hp : s.pc a with
  | idle =>
    cases call with
    | spinLock => exact h.draw (by rw [hp]; rfl)
    | spinTrylock => exact h.see hp
  | spinning ticket =>
    simp only [SpinLock.step]
    split_ifs with hserving
    · have hsame : update s.pc a (.spinning ticket) = s.pc := by
        rw [← hp, update_eq_self]
      rw [hsame]
      exact h
    · rw [not_not] at hserving
      exact h.win hlt (by rw [hp, hserving])
  | acquired => apply h.move <;> simp [hp, Pc.hasTicket, Pc.holds, SpinLock.step]
  | holding => apply h.move <;> simp [hp, Pc.hasTicket, Pc.holds, SpinLock.step]
  | unlockLoad => apply h.move <;> simp [hp, Pc.hasTicket, Pc.holds, SpinLock.step]
  | unlockStore serving =>
    have hserving := h.storing a serving hp
    subst hserving
    exact h.leave hp
  | tryTest serving =>
    simp only [SpinLock.step]
    split_ifs with htest
    · apply h.move <;> simp [hp, Pc.hasTicket, Pc.holds]
    · apply h.move <;> simp [hp, Pc.hasTicket, Pc.holds]
      exact h.tried a serving (.inl hp)
  | tryCas serving =>
    simp only [SpinLock.step]
    split_ifs with hcas
    · subst hcas
      exact h.tryWin hlt hp (hw _ hp rfl)
    · apply h.move <;> simp [hp, Pc.hasTicket, Pc.holds]

/-- With fewer than `2 ^ 32` contenders, and `spin_trylock` calls that swap within `2 ^ 32` tickets
of the one they saw served, at most one contender holds the lock, and it is won in the order of the
tickets. -/
theorem reaches_one_holder [Fintype α] (hcard : Fintype.card α < 2 ^ 32) (s : System α)
    (h : Run.Reaches Next InWindow start s) :
    (∀ a b, (s.pc a).holds → (s.pc b).holds → a = b) ∧ s.hist.won <+: s.hist.drawn := by
  have hinv : s.Inv := by
    apply h.invariant _ start_inv
    rintro s ⟨a, cpu, call⟩ s' hs hw rfl
    exact hs.step (hs.pending_lt hcard) a cpu call hw
  constructor
  · intro a b ha hb
    exact hinv.one_holder ha hb
  · by_cases hheld : ∃ a, (s.pc a).holds
    · obtain ⟨a, ha⟩ := hheld
      rw [hinv.won_held a ha]
      exact take_prefix _ _
    · rw [hinv.won_free (not_exists.mp hheld)]
      exact take_prefix _ _

theorem reaches_one_holder_first :
    Fintype.card (Fin 2) < 2 ^ 32 ∧
    ∃ s : System (Fin 2), Run.Reaches Next InWindow start s ∧ (s.pc 0).holds ∧
      s.pc 1 = .spinning 1 ∧ (∀ a b, (s.pc a).holds → (s.pc b).holds → a = b) ∧
      s.hist.won <+: s.hist.drawn := by
  have hcard : Fintype.card (Fin 2) < 2 ^ 32 := by decide
  have hrun : Run.Reaches Next InWindow (start : System (Fin 2))
      (((start.step 0 0 .spinLock).step 1 0 .spinLock).step 0 0 .spinLock) := by
    apply Run.Reaches.trans (.single (0, 0, .spinLock) (by simp [InWindow, start]) rfl)
    apply Run.Reaches.trans (.single (1, 0, .spinLock)
      (by simp [InWindow, start, step, SpinLock.step]) rfl)
    apply Run.Reaches.single (0, 0, .spinLock) _ rfl
    simp [InWindow, start, step, SpinLock.step]
  exact ⟨hcard, _, hrun, by decide, by decide, reaches_one_holder hcard _ hrun⟩

/-- One contender is before the compare-and-swap of `spin_trylock` with `0`; the other is idle after
`n` rounds. -/
def Stalled (n : ℕ) (s : System (Fin 2)) : Prop :=
  s.lock = ⟨BitVec.ofNat 32 n, BitVec.ofNat 32 n, -1⟩ ∧ s.pc 0 = .tryCas 0 ∧ s.pc 1 = .idle

/-- `spin_lock` and `spin_unlock` by the other contender. -/
def round (s : System (Fin 2)) : System (Fin 2) :=
  (List.range 6).foldl (fun s _ => s.step 1 0 .spinLock) s

theorem Stalled.round {n : ℕ} {s : System (Fin 2)} (h : Stalled n s) :
    Stalled (n + 1) s.round := by
  obtain ⟨hl, h0, h1⟩ := h
  obtain ⟨lock, pc, hist⟩ := s
  subst hl
  simp only at h0 h1
  unfold Stalled
  rw [ofNat_succ]
  simp [System.round, range_succ, step, SpinLock.step, h1, h0]

theorem reaches_foldl {s0 s : System (Fin 2)} (h : Run.Reaches Next (fun _ _ => True) s0 s)
    (l : List ℕ) :
    Run.Reaches Next (fun _ _ => True) s0 (l.foldl (fun s _ => s.step 1 0 .spinLock) s) := by
  induction l generalizing s with
  | nil => exact h
  | cons _ l ih => exact ih (h.trans (.single (1, 0, .spinLock) trivial rfl))

theorem exists_stalled (n : ℕ) :
    ∃ s, Run.Reaches Next (fun _ _ => True) start s ∧ Stalled n s := by
  induction n with
  | zero =>
    refine ⟨(start.step 0 0 .spinTrylock).step 0 0 .spinTrylock, ?_, rfl, rfl, rfl⟩
    apply Run.Reaches.trans (.single (0, 0, .spinTrylock) trivial rfl)
    exact .single (0, 0, .spinTrylock) trivial rfl
  | succ n ih =>
    obtain ⟨s, hs, hst⟩ := ih
    exact ⟨s.round, reaches_foldl hs _, hst.round⟩

/-- After `2 ^ 32` tickets the value that `spin_trylock` read comes round again: it succeeds while
the other holds the lock. -/
theorem spinTrylock_wins_held_lock :
    ∃ s : System (Fin 2), Run.Reaches Next (fun _ _ => True) start s ∧
      s.pc 0 = .acquired ∧ s.pc 1 = .acquired := by
  obtain ⟨s, hs, hl, h0, h1⟩ := exists_stalled (2 ^ 32 - 1)
  refine ⟨((s.step 1 0 .spinLock).step 1 0 .spinLock).step 0 0 .spinTrylock, ?_, ?_⟩
  · apply Run.Reaches.trans hs
    apply Run.Reaches.trans (.single (1, 0, .spinLock) trivial rfl)
    apply Run.Reaches.trans (.single (1, 0, .spinLock) trivial rfl)
    exact .single (0, 0, .spinTrylock) trivial rfl
  · simp [step, SpinLock.step, h0, h1, hl]

end System
end SpinLock
end Doppio
