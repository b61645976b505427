import Mathlib.Data.BitVec
import Mathlib.Tactic
import Doppio.Library.Run

/-! The eventfd of `kernel/sys/sys_fd.c`, one step for each section under `eb->lock` and for the
`wake_up` in `eventfd_write`. A thread on `waitq` runs again once a `wake_up` has taken it off. -/
namespace Doppio.Eventfd
open Function List Option
open Set

/-- In no call, before the `spin_lock` of a turn, or before `wake_up`. -/
inductive Pc where
  | idle
  | read
  | write (value : BitVec 64)
  | wake
  deriving DecidableEq

/-- `struct eventfd_buffer` and its threads, with the sums written and read. -/
structure System (α : Type*) where
  counter : BitVec 64
  flags : BitVec 32
  waitq : List α
  pc : α → Pc
  written : ℕ
  taken : ℕ

inductive Event (α : Type*) where
  | read (t : α)
  | write (t : α) (value : BitVec 64)
  /-- the next section of a thread -/
  | run (t : α)

namespace System
variable {α : Type*}

/-- After `sys_eventfd2`. -/
def init (initval flags : BitVec 32) : System α :=
  ⟨initval.setWidth 64, flags, [], fun _ => .idle, 0, 0⟩

def semaphore (s : System α) : Bool := s.flags &&& 1 != 0

def nonblock (s : System α) : Bool := s.flags &&& 0x800 != 0

/-- The loop of `eventfd_write` ends. -/
def hasRoom (s : System α) (value : BitVec 64) : Bool :=
  !(0xfffffffffffffffe - s.counter < value)

variable [DecidableEq α]

section
variable (s : System α)

def setPc (t : α) (pc : Pc) : System α := { s with pc := update s.pc t pc }

/-- A turn of either loop that does not end it. -/
def block (t : α) : System α :=
  if s.nonblock then s.setPc t .idle
  else { s with waitq := if t ∈ s.waitq then s.waitq else s.waitq ++ [t] }

def readSection (t : α) : System α :=
  if s.counter = 0 then s.block t
  else
    let value := if s.semaphore then 1 else s.counter
    { s with
      waitq := s.waitq.erase t
      counter := if s.semaphore then s.counter - 1 else 0
      taken := s.taken + value.toNat }.setPc t .idle

def writeSection (t : α) (value : BitVec 64) : System α :=
  if s.hasRoom value then
    { s with
      waitq := s.waitq.erase t
      counter := s.counter + value
      written := s.written + value.toNat }.setPc t .wake
  else s.block t

def step : Event α → Option (System α)
  | .read t => if s.pc t = .idle then some (s.setPc t .read) else none
  | .write t value =>
    if s.pc t = .idle then
      some (if value = 0xffffffffffffffff then s else s.setPc t (.write value))
    else none
  | .run t =>
    if t ∈ s.waitq then none
    else match s.pc t with
      | .idle => none
      | .read => some (s.readSection t)
      | .write value => some (s.writeSection t value)
      | .wake => some ({ s with waitq := s.waitq.tail }.setPc t .idle)

def Next (e : Event α) (s' : System α) : Prop := s.step e = some s'

/-- The condition a thread waits for. -/
def satisfied : Pc → Bool
  | .read => 0 < s.counter.toNat
  | .write value => s.counter.toNat + value.toNat ≤ 2 ^ 64 - 2
  | _ => false

/-- A thread is blocked though its condition holds, and none is runnable in a call. -/
def Stuck : Prop :=
  (∃ t ∈ s.waitq, s.satisfied (s.pc t)) ∧ ∀ t, s.pc t ≠ .idle → t ∈ s.waitq

end

instance [Fintype α] (s : System α) : Decidable s.Stuck := inferInstanceAs (Decidable (_ ∧ _))

variable {s s' : System α} {e : Event α} {t : α} {initval : BitVec 32}

theorem step_cases (he : s.step e = some s') :
    (∃ t pc, s.pc t = .idle ∧ pc ≠ .wake ∧ s' = s.setPc t pc) ∨ ∃ t, e = .run t ∧ t ∉ s.waitq ∧
      (s.pc t = .read ∧ s' = s.readSection t ∨
       (∃ value, s.pc t = .write value ∧ s' = s.writeSection t value) ∨
       s.pc t = .wake ∧ s' = { s with waitq := s.waitq.tail }.setPc t .idle) := by
  cases e with
  | read t =>
    obtain ⟨hidle, he⟩ := ite_none_right_eq_some.mp he
    exact .inl ⟨t, .read, hidle, by simp, (some.inj he).symm⟩
  | write t value =>
    obtain ⟨hidle, he⟩ := ite_none_right_eq_some.mp he
    cases he
    left
    split_ifs
    · exact ⟨t, .idle, hidle, by simp, by simp [setPc, ← hidle]⟩
    · exact ⟨t, .write value, hidle, by simp, rfl⟩
  | run t =>
    obtain ⟨hout, he⟩ := ite_none_left_eq_some.mp he
    refine .inr ⟨t, rfl, hout, ?_⟩
    cases hpc : s.pc t <;> simp_all

structure Counted (initval : BitVec 32) (s : System α) : Prop where
  le : s.counter.toNat ≤ 2 ^ 64 - 2
  sum : initval.toNat + s.written = s.taken + s.counter.toNat

variable {value : BitVec 64}

section
variable (h : s.Counted initval)
include h

theorem Counted.block : (s.block t).Counted initval := by
  unfold System.block
  split
  · exact ⟨h.le, h.sum⟩
  · exact ⟨h.le, h.sum⟩

theorem Counted.readSection : (s.readSection t).Counted initval := by
  obtain ⟨hle, hsum⟩ := h
  unfold System.readSection
  split_ifs with hzero hsem
  · exact Counted.block ⟨hle, hsum⟩
  · constructor <;> simp only [setPc] <;> bv_omega
  · constructor <;> simp [setPc, hsum]

theorem Counted.writeSection :
    (s.writeSection t value).Counted initval := by
  unfold System.writeSection
  split_ifs with hroom
  · obtain ⟨hle, hsum⟩ := h
    simp only [hasRoom, Bool.not_eq_true', decide_eq_false_iff_not] at hroom
    constructor <;> simp only [setPc] <;> bv_omega
  · exact h.block

theorem Counted.step (he : s.step e = some s') : s'.Counted initval := by
  obtain ⟨t, pc, -, -, rfl⟩ | ⟨t, -, -, ⟨-, rfl⟩ | ⟨value, -, rfl⟩ | ⟨-, rfl⟩⟩ := step_cases he
  · exact ⟨h.le, h.sum⟩
  · exact h.readSection
  · exact h.writeSection
  · exact ⟨h.le, h.sum⟩

end

section
variable (s : System α)

/-- The threads off the queue that will read or wake. -/
def ready : Set α := {t | t ∉ s.waitq ∧ (s.pc t = .read ∨ s.pc t = .wake)}

/-- How many reads the counter allows. -/
def demand : ℕ := if s.semaphore then s.counter.toNat else min s.counter.toNat 1

/-- A write finds room; in semaphore mode it adds at most one while several wait. -/
def ok : Event α → Bool
  | .run t => match s.pc t with
    | .write value => (s.hasRoom value || s.nonblock) &&
        (!s.semaphore || value.toNat ≤ 1 || s.waitq.length ≤ 1)
    | _ => true
  | _ => true

/-- Only readers wait, and a thread is ready for each read that the counter allows, unless the
wakeup of the one waiting is on its way. -/
structure Live : Prop where
  nodup : s.waitq.Nodup
  readers : ∀ t ∈ s.waitq, s.pc t = .read
  ready : s.waitq = [] ∨ (s.demand : ℕ∞) ≤ s.ready.encard ∨ s.waitq.length ≤ 1 ∧ ∃ w, s.pc w = .wake

end

theorem ready_subset {pc : Pc} (hq : s'.waitq = s.waitq) (hp : s'.pc = update s.pc t pc) :
    s.ready ⊆ insert t s'.ready := by
  intro u hu
  by_cases hut : u = t
  · exact .inl hut
  · exact .inr ⟨hq ▸ hu.1, by simpa [hp, hut] using hu.2⟩

omit [DecidableEq α] in
theorem demand_add {pc : α → Pc} {q : List α} {n m : ℕ}
    (h : s.semaphore = false ∨ value.toNat ≤ 1) :
    demand ⟨s.counter + value, s.flags, q, pc, n, m⟩ ≤ s.demand + 1 := by
  unfold demand
  change (if s.semaphore then _ else _) ≤ _
  split_ifs with hsem
  · have hone := h.resolve_left (by simp [hsem])
    rw [BitVec.toNat_add]
    omega
  · omega

section
variable (h : s.Live)
include h

omit [DecidableEq α] in
theorem Live.not_stuck : ¬ s.Stuck := by
  rintro ⟨⟨t, ht, hsat⟩, hall⟩
  rw [h.readers t ht] at hsat
  obtain hnil | hle | ⟨-, w, hw⟩ := h.ready
  · simp [hnil] at ht
  · have hempty : s.ready = ∅ := by
      apply eq_empty_of_forall_notMem
      rintro u ⟨hout, hpc⟩
      exact hout (hall u fun hidle => by simp [hidle] at hpc)
    rw [hempty] at hle
    have hpos : 0 < s.demand := by
      simp only [satisfied, decide_eq_true_eq] at hsat
      unfold demand
      split_ifs <;> omega
    simp at hle
    omega
  · have hread := h.readers w (hall w (by simp [hw]))
    simp [hw] at hread

theorem Live.move {pc : Pc} (ht : t ∉ s.waitq) (hq : s'.waitq.Sublist s.waitq)
    (hp : s'.pc = update s.pc t pc) (hready : s'.waitq = [] ∨ (s'.demand : ℕ∞) ≤ s'.ready.encard ∨
      s'.waitq.length ≤ 1 ∧ ∃ w, s'.pc w = .wake) : s'.Live := by
  refine ⟨hq.nodup h.nodup, fun u hu => ?_, hready⟩
  have hut : u ≠ t := fun hut => ht (hut ▸ hq.subset hu)
  rw [hp, update_of_ne hut]
  exact h.readers u (hq.subset hu)

theorem Live.setPc {pc : Pc} (ht : s.pc t ≠ .read) (hw : s.pc t ≠ .wake) :
    (s.setPc t pc).Live := by
  refine h.move (fun hmem => ht (h.readers t hmem)) (.refl _) rfl
    (h.ready.imp_right (.imp (fun hle => ?_) ?_))
  · have hnot : t ∉ s.ready := fun hu => hu.2.elim ht hw
    exact hle.trans (encard_le_encard ((subset_insert_iff_of_notMem hnot).mp
      (ready_subset rfl rfl)))
  · rintro ⟨hlen, w, hpc⟩
    have hwt : w ≠ t := fun hwt => hw (hwt ▸ hpc)
    exact ⟨hlen, w, (update_of_ne hwt _ _).trans hpc⟩

theorem Live.block (ht : t ∉ s.waitq) (hpc : s.pc t = .read) (hzero : s.counter = 0) :
    (s.block t).Live := by
  have hdemand (r : ℕ∞) : (s.demand : ℕ∞) ≤ r := by simp [demand, hzero]
  unfold System.block
  split_ifs
  · exact h.move ht (.refl _) rfl (.inr (.inl (hdemand _)))
  · refine ⟨nodup_append_comm.mp (h.nodup.cons ht), fun u hu => ?_, .inr (.inl (hdemand _))⟩
    obtain hu | rfl := by simpa using hu
    · exact h.readers u hu
    · exact hpc

theorem Live.writeSection (ht : t ∉ s.waitq)
    (hpc : s.pc t = .write value) (hok : s.ok (.run t)) : (s.writeSection t value).Live := by
  simp only [ok, hpc, Bool.and_eq_true, Bool.or_eq_true, Bool.not_eq_true', decide_eq_true_eq] at hok
  obtain ⟨hroom, hone⟩ := hok
  unfold System.writeSection
  split_ifs with hr
  · rw [erase_of_not_mem ht]
    refine h.move ht (.refl _) rfl (h.ready.imp_right fun hready => ?_)
    by_cases hlen : s.waitq.length ≤ 1
    · exact .inr ⟨hlen, t, update_self ..⟩
    · have hle := hready.resolve_right fun hc => hlen hc.1
      have hnot : t ∉ s.ready := fun hu => by simpa [hpc] using hu.2
      refine .inl ((Nat.cast_le.mpr (demand_add (hone.resolve_right hlen))).trans ?_)
      rw [Nat.cast_succ]
      refine (add_le_add_left hle 1).trans ?_
      rw [← encard_insert_of_notMem hnot]
      exact encard_le_encard (insert_subset ⟨ht, .inr (update_self ..)⟩
        ((subset_insert_iff_of_notMem hnot).mp (ready_subset rfl rfl)))
  · rw [System.block, if_pos (hroom.resolve_left hr)]
    exact h.setPc (by simp [hpc]) (by simp [hpc])

theorem Live.wake (ht : t ∉ s.waitq) (hpc : s.pc t = .wake) :
    ({ s with waitq := s.waitq.tail }.setPc t .idle).Live := by
  refine h.move ht (tail_sublist _) rfl ?_
  cases hq : s.waitq with
  | nil => exact .inl rfl
  | cons u q =>
    obtain hnil | hle | ⟨hlen, -⟩ := h.ready
    · simp [hq] at hnil
    · -- the thread leaves the ready ones and the head of the queue joins them
      have hu : u ∈ s.waitq := by simp [hq]
      have hut : u ≠ t := fun hut => ht (hut ▸ hu)
      have hnodup := h.nodup
      rw [hq, nodup_cons] at hnodup
      have hmem : t ∈ s.ready := ⟨ht, .inr hpc⟩
      refine .inr (.inl (hle.trans ?_))
      rw [← encard_sdiff_singleton_add_one hmem,
        ← encard_insert_of_notMem fun hc : u ∈ s.ready \ {t} => hc.1.1 hu]
      apply encard_le_encard
      apply insert_subset
      · exact ⟨hnodup.1, .inl ((update_of_ne hut _ _).trans (h.readers u hu))⟩
      · rintro v ⟨⟨hv, hpv⟩, hvt⟩
        refine ⟨fun hc => hv (hq ▸ mem_cons_of_mem u hc), ?_⟩
        simpa [System.setPc, show v ≠ t from hvt] using hpv
    · have hnil : q = [] := by simpa [hq] using hlen
      exact .inl hnil

end

theorem demand_readSection (hzero : s.counter ≠ 0) : s.demand = (s.readSection t).demand + 1 := by
  have hpos : 0 < s.counter.toNat := by bv_omega
  rw [System.readSection, if_neg hzero]
  unfold demand
  change _ = (if s.semaphore then _ else _) + 1
  split_ifs with hsem
  · simp only [System.setPc]
    bv_omega
  · change _ = min 0 1 + 1
    omega

theorem Live.readSection (h : s.Live) (ht : t ∉ s.waitq) (hpc : s.pc t = .read) :
    (s.readSection t).Live := by
  by_cases hzero : s.counter = 0
  · rw [System.readSection, if_pos hzero]
    exact h.block ht hpc hzero
  have hq : (s.readSection t).waitq = s.waitq := by
    rw [System.readSection, if_neg hzero]
    exact erase_of_not_mem ht
  have hp : (s.readSection t).pc = update s.pc t .idle := by
    rw [System.readSection, if_neg hzero]
    rfl
  refine h.move ht (hq ▸ .refl _) hp ?_
  rw [hq, hp]
  refine h.ready.imp_right (.imp (fun hle => ?_) ?_)
  · rw [demand_readSection hzero] at hle
    have hle := hle.trans ((encard_le_encard (ready_subset hq hp)).trans (encard_insert_le _ _))
    exact (ENat.add_le_add_iff_right ENat.one_ne_top).mp hle
  · rintro ⟨hlen, w, hw⟩
    have hwt : w ≠ t := by
      rintro rfl
      simp [hw] at hpc
    exact ⟨hlen, w, (update_of_ne hwt _ _).trans hw⟩

theorem Live.step (h : s.Live) (hok : s.ok e) (he : s.step e = some s') : s'.Live := by
  obtain ⟨t, pc, hidle, -, rfl⟩ | ⟨t, rfl, ht, ⟨hpc, rfl⟩ | ⟨value, hpc, rfl⟩ | ⟨hpc, rfl⟩⟩ :=
    step_cases he
  · exact h.setPc (by simp [hidle]) (by simp [hidle])
  · exact h.readSection ht hpc
  · exact h.writeSection ht hpc hok
  · exact h.wake ht hpc

omit [DecidableEq α] in
theorem live_init (flags : BitVec 32) : (init initval flags : System α).Live :=
  ⟨nodup_nil, by simp [init], .inl rfl⟩

/-- The counter and the sums in every run; no thread is stuck in the runs within `ok`. -/
theorem reaches_not_stuck {flags : BitVec 32}
    (h : Run.Reaches Next (fun _ _ => True) (init initval flags) s) :
    s.counter.toNat ≤ 2 ^ 64 - 2 ∧ initval.toNat + s.written = s.taken + s.counter.toNat ∧
      (Run.Reaches Next (fun s e => s.ok e) (init initval flags) s → ¬ s.Stuck) := by
  have hcounted : s.Counted initval := by
    apply h.invariant (I := Counted initval)
    · exact fun s e s' hs _ he => hs.step he
    · constructor <;> simp [init] <;> omega
  refine ⟨hcounted.le, hcounted.sum, fun hok => Live.not_stuck ?_⟩
  apply hok.invariant (I := Live)
  · exact fun s e s' hs hok he => hs.step hok he
  · exact live_init flags

theorem reaches_not_stuck_post : ∃ s : System (Fin 3),
    s.waitq = [1] ∧ s.counter.toNat ≤ 2 ^ 64 - 2 ∧ s.written = s.taken + s.counter.toNat ∧
      ¬ s.Stuck := by
  obtain ⟨s, hs, hq⟩ : ∃ s ∈ [Event.read (0 : Fin 3), .run 0, .read 1, .run 1, .write 2 1, .run 2,
      .run 2].foldlM (fun s e => if s.ok e then s.step e else none) (init 0 1), s.waitq = [1] := by
    decide +kernel
  have hreach := Run.reaches_of_guarded hs
  obtain ⟨hle, hsum, hlive⟩ := reaches_not_stuck (hreach.mono fun _ _ _ => trivial)
  exact ⟨s, hq, hle, by simpa using hsum, hlive hreach⟩

/-- Two readers of a semaphore wait, and a write of two wakes only one of them. -/
theorem reader_stuck : ∃ s : System (Fin 3),
    Run.Reaches Next (fun _ _ => True) (init 0 1) s ∧ s.Stuck := by
  obtain ⟨s, hs, hstuck⟩ : ∃ s ∈ [Event.read (0 : Fin 3), .run 0, .read 1, .run 1, .write 2 2,
      .run 2, .run 2, .run 0].foldlM step (init 0 1), s.Stuck := by
    decide +kernel
  exact ⟨s, Run.reaches_of_foldlM hs, hstuck⟩

end System
end Doppio.Eventfd
