import Doppio.Library.LinkedQueue
import Doppio.Library.Run

/-! The multi-level feedback queues of `kernel/proc/sched.c`: `sched_enqueue`, `sched_dequeue` with
stealing, and `sched_boost`. Each field of `struct thread` is a function of the thread. -/
namespace Doppio
open Function
open LinkedQueue List Finset

def mlfqLevels : ℕ := 4

def mlfqSlice (prio : ℕ) : ℕ := [5, 10, 20, 40].getD prio 0

inductive ThreadState where
  | embryo
  | ready
  | running
  | sleep
  | waiting
  | zombie
  deriving DecidableEq

/-- The fields of the threads that the queues use, `cpu_mlfqs`, the sleep queue and the number of
cores. -/
structure Mlfq (τ : Type*) where
  tid : τ → BitVec 32
  state : τ → ThreadState
  schedNext : τ → Option τ
  ticks : τ → ℕ
  priority : τ → ℤ
  sliceLeft : τ → ℕ
  cpu : τ → ℕ
  /-- by CPU and level -/
  queues : ℕ × ℕ → Ends τ
  threadCount : ℕ → BitVec 32
  sleepHead : Option τ
  totalCores : ℕ

namespace Mlfq
variable {τ : Type*} [DecidableEq τ]

section
variable (s : Mlfq τ)

def setQueue (c p : ℕ) (q : Ends τ) : Mlfq τ :=
  { s with queues := update s.queues (c, p) q }

def append (c p : ℕ) (t : τ) : Mlfq τ :=
  let r := pushBack s.schedNext (s.queues (c, p)) t
  { s with schedNext := r.1 }.setQueue c p r.2

/-- A priority outside the levels becomes 0. -/
def clampPriority (t : τ) : Mlfq τ :=
  if s.priority t < 0 ∨ mlfqLevels ≤ s.priority t then
    { s with priority := update s.priority t 0 }
  else s

/-- `sched_enqueue` on CPU `me`, without the request to reschedule. -/
def enqueue (me : ℕ) (t : τ) : Mlfq τ :=
  if s.tid t = 0 then s
  else
    let s := if s.totalCores ≤ s.cpu t then { s with cpu := update s.cpu t me } else s
    let c := s.cpu t
    let s := { s with state := update s.state t .ready }.clampPriority t
    let s := s.append c (s.priority t).toNat t
    { s with threadCount := update s.threadCount c (s.threadCount c + 1) }

/-- The scan of `n` levels from `p` on for a first thread, which is taken off. -/
def popLevels (s : Mlfq τ) (c : ℕ) : ℕ → ℕ → Option (τ × Mlfq τ)
  | _, 0 => none
  | p, n + 1 =>
    match popFront s.schedNext (s.queues (c, p)) with
    | some (t, next, q) =>
      some (t, { s with
        schedNext := next
        threadCount := update s.threadCount c (s.threadCount c - 1) }.setQueue c p q)
    | none => s.popLevels c (p + 1) n

/-- The search of `sched_dequeue` on the other CPUs; `free`: the `spin_trylock` succeeds. -/
def steal (s : Mlfq τ) (me : ℕ) (free : ℕ → Bool) : List ℕ → Option (τ × Mlfq τ)
  | [] => none
  | i :: is =>
    let target := (me + 1 + i) % s.totalCores
    if target = me then s.steal me free is
    else if s.threadCount target = 0 then s.steal me free is
    else if free target then
      match s.popLevels target 0 mlfqLevels with
      | some (t, s') => some (t, { s' with cpu := update s'.cpu t me })
      | none => s.steal me free is
    else s.steal me free is

/-- The new time slice of a dequeued thread. -/
def refill (t : τ) : Mlfq τ :=
  let s := s.clampPriority t
  { s with
    sliceLeft := update s.sliceLeft t (mlfqSlice (s.priority t).toNat)
    ticks := update s.ticks t 0 }

def dequeue (me : ℕ) (free : ℕ → Bool) : Option τ × Mlfq τ :=
  match (s.popLevels me 0 mlfqLevels).or (s.steal me free (List.range s.totalCores)) with
  | some (t, s') => (some t, s'.refill t)
  | none => (none, s)

/-- The `while (t)` of `sched_boost`: each thread goes to the end of level 0. -/
def boostThreads (c : ℕ) : ℕ → Option τ → Mlfq τ → Option (Mlfq τ)
  | _, none, s => some s
  | 0, some _, _ => none
  | fuel + 1, some t, s =>
    let next := s.schedNext t
    let s := { s with
      priority := update s.priority t 0
      sliceLeft := update s.sliceLeft t (mlfqSlice 0) }
    boostThreads c fuel next (s.append c 0 t)

def boostLevel (fuel c : ℕ) (s : Mlfq τ) (p : ℕ) : Option (Mlfq τ) := do
  let s ← boostThreads c fuel (s.queues (c, p)).head s
  pure (s.setQueue c p ⟨none, none⟩)

def boostCpu (fuel : ℕ) (s : Mlfq τ) (c : ℕ) : Option (Mlfq τ) :=
  [1, 2, 3].foldlM (boostLevel fuel c) s

/-- `sched_boost` along the sleep queue. -/
def boostSleepers : ℕ → Option τ → Mlfq τ → Option (Mlfq τ)
  | _, none, s => some s
  | 0, some _, _ => none
  | fuel + 1, some t, s =>
    let s := { s with priority := update s.priority t 0 }
    boostSleepers fuel (s.schedNext t) s

/-- `sched_boost`, with a bound on each loop. -/
def boost (fuel : ℕ) (s : Mlfq τ) : Option (Mlfq τ) := do
  let s ← (List.range s.totalCores).foldlM (boostCpu fuel) s
  boostSleepers fuel s.sleepHead s

def load (f : ℕ × ℕ → List τ) (c : ℕ) : ℕ := ∑ p ∈ Finset.range mlfqLevels, (f (c, p)).length

/-- The queues hold the lists `f` by CPU and level, the counters their lengths. -/
structure Rep (f : ℕ × ℕ → List τ) : Prop where
  family : Family s.schedNext s.queues f
  bound : ∀ k t, t ∈ f k → k.1 < s.totalCores ∧ k.2 < mlfqLevels
  count : ∀ c, s.threadCount c = BitVec.ofNat 32 (load f c)
  awake : s.sleepHead = none

end

variable {s : Mlfq τ} {f : ℕ × ℕ → List τ} {t : τ}

omit [DecidableEq τ] in
theorem Rep.congr {s s' : Mlfq τ} (h : s.Rep f)
    (hnext : s'.schedNext = s.schedNext) (hqueues : s'.queues = s.queues)
    (hcount : s'.threadCount = s.threadCount) (hsleep : s'.sleepHead = s.sleepHead)
    (hcores : s'.totalCores = s.totalCores) : s'.Rep f where
  family := by rw [hnext, hqueues]; exact h.family
  bound := by rw [hcores]; exact h.bound
  count := by rw [hcount]; exact h.count
  awake := by rw [hsleep]; exact h.awake

omit [DecidableEq τ] in
theorem load_update (f : ℕ × ℕ → List τ) (c p d : ℕ) (l : List τ) (hp : p < mlfqLevels) :
    load (update f (c, p) l) d + (if d = c then (f (c, p)).length else 0) =
      load f d + (if d = c then l.length else 0) := by
  unfold load
  by_cases hd : d = c
  · subst hd
    have hmem : p ∈ Finset.range mlfqLevels := Finset.mem_range.mpr hp
    have hrest : ∑ q ∈ (Finset.range mlfqLevels).erase p, (update f (d, p) l (d, q)).length =
        ∑ q ∈ (Finset.range mlfqLevels).erase p, (f (d, q)).length := by
      refine sum_congr rfl fun q hq => ?_
      rw [update_of_ne]
      simpa using (Finset.mem_erase.mp hq).1
    rw [← add_sum_erase _ _ hmem, ← add_sum_erase _ (fun q => (f (d, q)).length) hmem, hrest]
    simp only [update_self, if_true]
    omega
  · have hsame : ∀ q ∈ Finset.range mlfqLevels,
        (update f (c, p) l (d, q)).length = (f (d, q)).length := by
      intro q _
      rw [update_of_ne]
      simp [hd]
    rw [sum_congr rfl hsame]
    simp [hd]

/-- The CPU and level where `sched_enqueue` puts a thread. -/
def place (s : Mlfq τ) (me : ℕ) (t : τ) : ℕ × ℕ :=
  (if s.totalCores ≤ s.cpu t then me else s.cpu t,
    if s.priority t < 0 ∨ mlfqLevels ≤ s.priority t then 0 else (s.priority t).toNat)

variable {me : ℕ}

omit [DecidableEq τ] in
theorem place_lt (hme : me < s.totalCores) (t : τ) :
    (s.place me t).1 < s.totalCores ∧ (s.place me t).2 < mlfqLevels := by
  unfold place mlfqLevels
  constructor <;> dsimp only <;> split_ifs <;> omega

theorem enqueue_fields (me : ℕ) (ht : s.tid t ≠ 0) :
    (s.enqueue me t).schedNext = (pushBack s.schedNext (s.queues (s.place me t)) t).1 ∧
      (s.enqueue me t).queues = update s.queues (s.place me t)
        (pushBack s.schedNext (s.queues (s.place me t)) t).2 ∧
      (s.enqueue me t).threadCount = update s.threadCount (s.place me t).1
        (s.threadCount (s.place me t).1 + 1) ∧
      (s.enqueue me t).sleepHead = s.sleepHead ∧ (s.enqueue me t).totalCores = s.totalCores ∧
      (s.enqueue me t).tid = s.tid := by
  unfold Mlfq.enqueue
  simp only [if_neg ht]
  by_cases hcpu : s.totalCores ≤ s.cpu t <;>
    by_cases hprio : s.priority t < 0 ∨ (mlfqLevels : ℤ) ≤ s.priority t <;>
    simp [hcpu, hprio, clampPriority, append, setQueue, place]

theorem Rep.enqueue (h : s.Rep f)
    (hme : me < s.totalCores) (ht : s.tid t ≠ 0) (hnew : ∀ k, t ∉ f k) :
    (s.enqueue me t).Rep (update f (s.place me t) (f (s.place me t) ++ [t])) := by
  obtain ⟨hnext, hqueues, hcount, hsleep, hcores, _⟩ := enqueue_fields me ht
  have hlt := place_lt hme t
  refine ⟨?_, ?_, ?_, ?_⟩
  · rw [hnext, hqueues]
    exact h.family.push hnew _
  · intro k u hu
    rw [hcores]
    by_cases hk : k = s.place me t
    · rw [hk]
      exact hlt
    · rw [update_of_ne hk] at hu
      exact h.bound k u hu
  · intro c
    have hload := load_update f (s.place me t).1 (s.place me t).2 c (f (s.place me t) ++ [t]) hlt.2
    rw [Prod.mk.eta] at hload
    rw [hcount]
    by_cases hc : c = (s.place me t).1
    · subst hc
      simp only [if_true, length_append, length_singleton] at hload
      have hsucc : load (update f (s.place me t) (f (s.place me t) ++ [t]))
          (s.place me t).1 = load f (s.place me t).1 + 1 := by omega
      rw [update_self, h.count, hsucc, BitVec.ofNat_add]
      rfl
    · simp only [if_neg hc, Nat.add_zero] at hload
      rw [update_of_ne hc, h.count, hload]
  · rw [hsleep]
    exact h.awake

/-- The oldest thread of the first level of a CPU that has one. -/
structure Oldest (f : ℕ × ℕ → List τ) (c p : ℕ) (t : τ) (l : List τ) : Prop where
  here : f (c, p) = t :: l
  above : ∀ q < p, f (c, q) = []

omit [DecidableEq τ] in
theorem exists_oldest {c p : ℕ} (h : f (c, p) ≠ []) :
    ∃ q t l, Oldest f c q t l := by
  classical
  have hex : ∃ q, f (c, q) ≠ [] := ⟨p, h⟩
  obtain ⟨t, l, hl⟩ := exists_cons_of_ne_nil (Nat.find_spec hex)
  exact ⟨Nat.find hex, t, l, hl, fun q hq => not_not.mp (Nat.find_min hex hq)⟩

omit [DecidableEq τ] in
theorem Oldest.unique {c p q : ℕ} {t u : τ} {l m : List τ}
    (h : Oldest f c p t l) (h' : Oldest f c q u m) : t = u := by
  have hpq : p = q := by
    rcases lt_trichotomy p q with hlt | heq | hlt
    · have := h'.above p hlt
      rw [h.here] at this
      cases this
    · exact heq
    · have := h.above q hlt
      rw [h'.here] at this
      cases this
  subst hpq
  have := h.here.symm.trans h'.here
  cases this
  rfl

theorem refill_fields (s : Mlfq τ) (t : τ) :
    (s.refill t).schedNext = s.schedNext ∧ (s.refill t).queues = s.queues ∧
      (s.refill t).threadCount = s.threadCount ∧ (s.refill t).sleepHead = s.sleepHead ∧
      (s.refill t).totalCores = s.totalCores ∧ (s.refill t).tid = s.tid := by
  unfold refill clampPriority
  split_ifs <;> exact ⟨rfl, rfl, rfl, rfl, rfl, rfl⟩

section
variable (h : s.Rep f)
include h

theorem Rep.take {c p : ℕ} {l : List τ} (hp : f (c, p) = t :: l) :
    ∃ q, popFront s.schedNext (s.queues (c, p)) = some (t, update s.schedNext t none, q) ∧ ({ s with
        schedNext := update s.schedNext t none
        threadCount := update s.threadCount c (s.threadCount c - 1) }.setQueue c p q).Rep
        (update f (c, p) l) := by
  obtain ⟨q, hpop, hfamily⟩ := h.family.pop hp
  have hlt := h.bound (c, p) t (hp ▸ mem_cons_self)
  refine ⟨q, hpop, hfamily, ?_, ?_, h.awake⟩
  · intro k u hu
    by_cases hk : k = (c, p)
    · subst hk
      exact hlt
    · rw [update_of_ne hk] at hu
      exact h.bound k u hu
  · intro d
    have hload := load_update f c p d l hlt.2
    by_cases hd : d = c
    · subst hd
      simp only [if_true, hp, length_cons] at hload
      have hsucc : load f d = load (update f (d, p) l) d + 1 := by omega
      show update s.threadCount d (s.threadCount d - 1) d = _
      rw [update_self, h.count, hsucc, BitVec.ofNat_add]
      exact BitVec.add_sub_cancel _ _
    · simp only [if_neg hd, Nat.add_zero] at hload
      show update s.threadCount c (s.threadCount c - 1) d = _
      rw [update_of_ne hd, h.count, hload]

theorem Rep.popLevels (c p n : ℕ) :
    ((∀ q, p ≤ q → q < p + n → f (c, q) = []) ∧ s.popLevels c p n = none) ∨
      ∃ q t l s', p ≤ q ∧ q < p + n ∧ (∀ r, p ≤ r → r < q → f (c, r) = []) ∧ f (c, q) = t :: l ∧
        s.popLevels c p n = some (t, s') ∧ s'.Rep (update f (c, q) l) ∧
        s'.totalCores = s.totalCores ∧ s'.tid = s.tid := by
  induction n generalizing p with
  | zero => exact .inl ⟨fun q h1 h2 => absurd h1 (by omega), rfl⟩
  | succ n ih =>
    cases hp : f (c, p) with
    | cons t l =>
      obtain ⟨q, hpop, hrep⟩ := h.take hp
      refine .inr ⟨p, t, l, _, le_rfl, by omega, fun r h1 h2 => absurd h1 (by omega), hp, ?_, hrep,
        rfl, rfl⟩
      simp only [Mlfq.popLevels, hpop]
    | nil =>
      have hqueue := h.family.queue (c, p)
      rw [hp] at hqueue
      have hpop := hqueue.popFront_nil
      have hfirst : ∀ r, p ≤ r → r < p + 1 → f (c, r) = [] := by
        intro r h1 h2
        rw [show r = p by omega, hp]
      simp only [Mlfq.popLevels, hpop]
      rcases ih (p + 1) with ⟨hnone, he⟩ | ⟨q, t, l, s', h1, h2, habove, hq, he, hrep, hcores⟩
      · refine .inl ⟨fun q h1 h2 => ?_, he⟩
        by_cases hqp : q < p + 1
        · exact hfirst q h1 hqp
        · exact hnone q (by omega) (by omega)
      · refine .inr ⟨q, t, l, s', by omega, by omega, fun r h3 h4 => ?_, hq, he, hrep, hcores⟩
        by_cases hrp : r < p + 1
        · exact hfirst r h3 hrp
        · exact habove r (by omega) h4

theorem Rep.popCpu (c : ℕ) :
    ((∀ p, f (c, p) = []) ∧ s.popLevels c 0 mlfqLevels = none) ∨
      ∃ p t l s', Oldest f c p t l ∧ s.popLevels c 0 mlfqLevels = some (t, s') ∧
        s'.Rep (update f (c, p) l) ∧ s'.totalCores = s.totalCores ∧ s'.tid = s.tid := by
  rcases h.popLevels c 0 mlfqLevels with ⟨hnone, he⟩ | ⟨p, t, l, s', _, _, habove, hp, he, hrep⟩
  · refine .inl ⟨fun p => ?_, he⟩
    by_cases hp : p < mlfqLevels
    · exact hnone p (Nat.zero_le p) (by omega)
    · refine eq_nil_iff_forall_not_mem.mpr fun t ht => hp (h.bound (c, p) t ht).2
  · exact .inr ⟨p, t, l, s', ⟨hp, fun q hq => habove q (Nat.zero_le q) hq⟩, he, hrep⟩

theorem Rep.refill (t : τ) : (s.refill t).Rep f := by
  obtain ⟨hnext, hqueues, hcount, hsleep, hcores, _⟩ := refill_fields s t
  exact h.congr hnext hqueues hcount hsleep hcores

theorem Rep.steal (me : ℕ) (free : ℕ → Bool) (is : List ℕ) :
    s.steal me free is = none ∨
      ∃ c p t l s', c ≠ me ∧ Oldest f c p t l ∧ s.steal me free is = some (t, s') ∧
        s'.Rep (update f (c, p) l) ∧ s'.totalCores = s.totalCores ∧ s'.tid = s.tid := by
  induction is with
  | nil => exact .inl rfl
  | cons i is ih =>
    unfold Mlfq.steal
    dsimp only
    split_ifs with hme hzero hfree
    · exact ih
    · exact ih
    · rcases h.popCpu ((me + 1 + i) % s.totalCores) with ⟨_, he⟩ | ⟨p, t, l, s', hold, he, hrep, hrest⟩
      · rw [he]
        exact ih
      · rw [he]
        refine .inr ⟨_, p, t, l, _, hme, hold, rfl, ?_, hrest⟩
        exact hrep.congr rfl rfl rfl rfl rfl
    · exact ih

theorem Rep.dequeue (me : ℕ) (free : ℕ → Bool) :
    (∃ c p t l, Oldest f c p t l ∧ (c ≠ me → ∀ q, f (me, q) = []) ∧ (s.dequeue me free).1 = some t ∧
      (s.dequeue me free).2.Rep (update f (c, p) l) ∧
      (s.dequeue me free).2.totalCores = s.totalCores ∧ (s.dequeue me free).2.tid = s.tid) ∨
    ((∀ q, f (me, q) = []) ∧ s.dequeue me free = (none, s)) := by
  unfold Mlfq.dequeue
  rcases h.popCpu me with ⟨hnone, he⟩ | ⟨p, t, l, s', hold, he, hrep, hcores, htid⟩
  · rw [he]
    rcases h.steal me free (range s.totalCores) with hs |
      ⟨c, p, t, l, s', _, hold, hs, hrep, hcores, htid⟩
    · rw [hs]
      exact .inr ⟨hnone, rfl⟩
    · rw [hs]
      obtain ⟨_, _, _, _, hcores', htid'⟩ := refill_fields s' t
      exact .inl ⟨c, p, t, l, hold, fun _ => hnone, rfl, hrep.refill t, hcores'.trans hcores,
        htid'.trans htid⟩
  · rw [he]
    obtain ⟨_, _, _, _, hcores', htid'⟩ := refill_fields s' t
    exact .inl ⟨me, p, t, l, hold, fun hne => absurd rfl hne, rfl, hrep.refill t,
      hcores'.trans hcores, htid'.trans htid⟩

end

/-- One level of a CPU behind its level 0. -/
def moved (f : ℕ × ℕ → List τ) (c p : ℕ) : ℕ × ℕ → List τ :=
  update (update f (c, p) []) (c, 0) (f (c, 0) ++ f (c, p))

/-- What the loops of `sched_boost` leave alone. -/
def SameCounts (s s' : Mlfq τ) : Prop :=
  s'.threadCount = s.threadCount ∧ s'.sleepHead = s.sleepHead ∧ s'.totalCores = s.totalCores ∧
    s'.tid = s.tid

theorem boostThreads_spec {c p : ℕ} {cur last : Option τ} (hp : p ≠ 0)
    (h : Family s.schedNext (update s.queues (c, p) ⟨cur, last⟩) f) :
    ∃ s', (∀ fuel, (f (c, p)).length ≤ fuel → boostThreads c fuel cur s = some s') ∧
      Family s'.schedNext (update s'.queues (c, p) ⟨none, none⟩) (moved f c p) ∧
      SameCounts s s' := by
  have hne : ((c, 0) : ℕ × ℕ) ≠ (c, p) := by simpa using Ne.symm hp
  have hqueue := h.queue (c, p)
  rw [update_self] at hqueue
  -- induction on the threads that are left
  induction hl : f (c, p) generalizing s f cur last with
  | nil =>
    rw [hl] at hqueue
    obtain rfl : cur = none := hqueue.linked
    obtain rfl : last = none := hqueue.tail_eq
    have hmoved : moved f c p = f := by
      unfold moved
      rw [hl, append_nil, ← hl, update_eq_self, update_eq_self]
    rw [hmoved]
    exact ⟨s, fun fuel _ => by unfold boostThreads; rfl, h, rfl, rfl, rfl, rfl⟩
  | cons t l ih =>
    rw [hl] at hqueue
    obtain rfl : cur = some t := hqueue.linked.1
    obtain ⟨q, hpop, hfamily⟩ := h.pop hl
    have hq : q.head = s.schedNext t := by
      simp only [update_self, popFront, Option.some.injEq, Prod.mk.injEq, true_and] at hpop
      rw [← hpop]
    have hpush := hfamily.push (h.popped hl) (c, 0)
    simp only [pushBack_unlinked, update_idem, update_of_ne hne] at hpush
    rw [update_comm hne.symm] at hpush
    rw [show q = ⟨s.schedNext t, q.tail⟩ by rw [← hq]] at hpush
    have hthis := hpush.queue (c, p)
    rw [update_self] at hthis
    have hrest : update (update f (c, p) l) (c, 0) (f (c, 0) ++ [t]) (c, p) = l := by
      rw [update_of_ne hne.symm, update_self]
    obtain ⟨s', hrun, hs', hsame⟩ := ih (s := { s with
        priority := update s.priority t 0
        sliceLeft := update s.sliceLeft t (mlfqSlice 0) }.append c 0 t)
      hpush hthis hrest
    refine ⟨s', fun fuel hfuel => ?_, ?_, hsame⟩
    · obtain ⟨fuel, rfl⟩ : ∃ n, fuel = n + 1 := ⟨fuel - 1, by simp at hfuel; omega⟩
      exact hrun fuel (by simpa using hfuel)
    have hmoved : moved (update (update f (c, p) l) (c, 0) (f (c, 0) ++ [t]))
        c p = moved f c p := by
      unfold moved
      simp only [update_self, update_of_ne hne.symm, hl]
      rw [update_comm hne.symm, update_idem, update_comm hne,
        update_idem, append_assoc, singleton_append]
    rw [← hmoved]
    exact hs'

omit [DecidableEq τ] in
theorem load_moved (c d : ℕ) {p : ℕ} (hp : p ≠ 0)
    (hlt : p < mlfqLevels) : load (moved f c p) d = load f d := by
  have hne : ((c, 0) : ℕ × ℕ) ≠ (c, p) := by simpa using Ne.symm hp
  have h1 := load_update f c p d [] hlt
  have h2 := load_update (update f (c, p) []) c 0 d (f (c, 0) ++ f (c, p)) (by decide)
  rw [update_of_ne hne, length_append] at h2
  unfold moved
  rw [length_nil] at h1
  split_ifs at h1 h2 <;> omega

omit [DecidableEq τ] in
theorem mem_moved {c p : ℕ} {k : ℕ × ℕ} (h : t ∈ moved f c p k) :
    t ∈ f k ∨ k = (c, 0) ∧ t ∈ f (c, p) := by
  unfold moved at h
  by_cases hk : k = (c, 0)
  · subst hk
    rw [update_self, mem_append] at h
    exact h.imp_right fun hp => ⟨rfl, hp⟩
  · rw [update_of_ne hk] at h
    by_cases hkp : k = (c, p)
    · subst hkp
      simp at h
    · rw [update_of_ne hkp] at h
      exact .inl h

theorem Rep.boostLevel (h : s.Rep f) (c p : ℕ) (hp : p ≠ 0) (hlt : p < mlfqLevels) :
    ∃ s', (∀ fuel, (f (c, p)).length ≤ fuel → boostLevel fuel c s p = some s') ∧ s'.Rep (moved f c p) ∧
      s'.totalCores = s.totalCores ∧ s'.tid = s.tid := by
  have hfamily := h.family
  rw [← update_eq_self (c, p) s.queues] at hfamily
  obtain ⟨s', hrun, hs', hcount, hsleep, hcores, htid⟩ := boostThreads_spec hp hfamily
  refine ⟨s'.setQueue c p ⟨none, none⟩, ?_, ⟨hs', ?_, ?_, hsleep.trans h.awake⟩, hcores, htid⟩
  · intro fuel hfuel
    simp [Mlfq.boostLevel, hrun fuel hfuel]
  · intro k t ht
    show _ < s'.totalCores ∧ _
    rw [hcores]
    rcases mem_moved ht with hk | ⟨rfl, hp⟩
    · exact h.bound k t hk
    · exact ⟨(h.bound (c, p) t hp).1, show 0 < mlfqLevels by decide⟩
  · intro d
    show s'.threadCount d = _
    rw [hcount, h.count, load_moved c d hp hlt]

def boosted (f : ℕ × ℕ → List τ) : ℕ × ℕ → List τ :=
  fun k => if k.2 = 0 then f (k.1, 0) ++ f (k.1, 1) ++ f (k.1, 2) ++ f (k.1, 3) else []

def boostedOn (f : ℕ × ℕ → List τ) (c : ℕ) : ℕ × ℕ → List τ :=
  fun k => if k.1 = c then boosted f k else f k

omit [DecidableEq τ] in
theorem moved_eq_boostedOn (hf : ∀ k, mlfqLevels ≤ k.2 → f k = []) (c : ℕ) :
    moved (moved (moved f c 1) c 2) c 3 = boostedOn f c := by
  funext ⟨d, p⟩
  by_cases hd : d = c
  · subst hd
    have hcases : p = 0 ∨ p = 1 ∨ p = 2 ∨ p = 3 ∨ 4 ≤ p := by omega
    rcases hcases with rfl | rfl | rfl | rfl | hp
    · simp [moved, boostedOn, boosted]
    · simp [moved, boostedOn, boosted]
    · simp [moved, boostedOn, boosted]
    · simp [moved, boostedOn, boosted]
    · have h0 : p ≠ 0 := by omega
      have h1 : p ≠ 1 := by omega
      have h2 : p ≠ 2 := by omega
      have h3 : p ≠ 3 := by omega
      simp [moved, boostedOn, boosted, h0, h1, h2, h3, hf (d, p) hp]
  · simp [moved, boostedOn, hd]

theorem Rep.boostCpu (h : s.Rep f) (c : ℕ) :
    ∃ s', (∀ fuel, (∀ p, p ≠ 0 → (f (c, p)).length ≤ fuel) → boostCpu fuel s c = some s') ∧
      s'.Rep (boostedOn f c) ∧
      s'.totalCores = s.totalCores ∧ s'.tid = s.tid := by
  obtain ⟨s1, e1, h1, hc1, ht1⟩ := h.boostLevel c 1 (by decide) (by decide)
  obtain ⟨s2, e2, h2, hc2, ht2⟩ := h1.boostLevel c 2 (by decide) (by decide)
  obtain ⟨s3, e3, h3, hc3, ht3⟩ := h2.boostLevel c 3 (by decide) (by decide)
  rw [moved_eq_boostedOn] at h3
  · refine ⟨s3, fun fuel hfuel => ?_, h3, hc3.trans (hc2.trans hc1), ht3.trans (ht2.trans ht1)⟩
    have e1 := e1 fuel (hfuel 1 (by decide))
    have e2 := e2 fuel (by simpa [moved] using hfuel 2 (by decide))
    have e3 := e3 fuel (by simpa [moved] using hfuel 3 (by decide))
    simp [Mlfq.boostCpu, e1, e2, e3]
  · intro k hk
    exact eq_nil_iff_forall_not_mem.mpr fun t ht => absurd (h.bound k t ht).2 (by omega)

theorem Rep.boostCpus (h : s.Rep f) (n : ℕ) :
    ∃ s', (∀ fuel, (∀ k, k.2 ≠ 0 → (f k).length ≤ fuel) →
        (List.range n).foldlM (Mlfq.boostCpu fuel) s = some s') ∧
      s'.Rep (fun k => if k.1 < n then boosted f k else f k) ∧
      s'.totalCores = s.totalCores ∧ s'.tid = s.tid := by
  induction n with
  | zero => exact ⟨s, fun _ _ => rfl, by simpa using h, rfl, rfl⟩
  | succ n ih =>
    obtain ⟨s1, e1, h1, hc1, ht1⟩ := ih
    obtain ⟨s2, e2, h2, hc2, ht2⟩ := h1.boostCpu n
    refine ⟨s2, fun fuel hfuel => ?_, ?_, hc2.trans hc1, ht2.trans ht1⟩
    · have e2 := e2 fuel fun p hp => by simpa using hfuel (n, p) hp
      rw [range_succ, foldlM_append, e1 fuel hfuel]
      simpa using e2
    · have hstep : boostedOn (fun k : ℕ × ℕ => if k.1 < n then boosted f k else f k) n =
          fun k => if k.1 < n + 1 then boosted f k else f k := by
        funext ⟨c, p⟩
        unfold boostedOn
        by_cases hc : c = n
        · subst hc
          simp [boosted]
        · by_cases hlt : c < n
          · simp [hc, hlt, Nat.lt_succ_of_lt hlt]
          · have hge : ¬ c < n + 1 := by omega
            simp [hc, hlt, hge]
      rw [← hstep]
      exact h2

theorem Rep.boost (h : s.Rep f) :
    ∃ s', (∀ fuel, (∀ k, k.2 ≠ 0 → (f k).length ≤ fuel) → s.boost fuel = some s') ∧
      s'.Rep (boosted f) ∧ s'.totalCores = s.totalCores ∧
      s'.tid = s.tid := by
  obtain ⟨s', he, hs', hrest⟩ := h.boostCpus s.totalCores
  have hall : (fun k : ℕ × ℕ => if k.1 < s.totalCores then boosted f k else f k) = boosted f := by
    have hnil : ∀ k : ℕ × ℕ, ¬ k.1 < s.totalCores → f k = [] := fun k hk =>
      eq_nil_iff_forall_not_mem.mpr fun t ht => hk (h.bound k t ht).1
    funext ⟨c, p⟩
    by_cases hc : c < s.totalCores
    · simp [hc]
    · simp [boosted, hnil (c, _) hc]
  rw [hall] at hs'
  refine ⟨s', fun fuel hfuel => ?_, hs', hrest⟩
  simp [Mlfq.boost, he fuel hfuel, hs'.awake, boostSleepers]

omit [DecidableEq τ] in
/-- The links lead to the thread from the head of a run queue. -/
def OnQueue (s : Mlfq τ) (t : τ) : Prop :=
  ∃ c < s.totalCores, ∃ p < mlfqLevels, ∃ u, (s.queues (c, p)).head = some u ∧
    Relation.ReflTransGen (fun a b => s.schedNext a = some b) u t

omit [DecidableEq τ] in
theorem Rep.onQueue_iff (h : s.Rep f) (t : τ) :
    s.OnQueue t ↔ ∃ k, t ∈ f k := by
  constructor
  · rintro ⟨c, _, p, _, hu⟩
    exact ⟨(c, p), ((h.family.queue (c, p)).linked.mem_iff t).mpr hu⟩
  · rintro ⟨⟨c, p⟩, ht⟩
    obtain ⟨hc, hp⟩ := h.bound (c, p) t ht
    exact ⟨c, hc, p, hp, ((h.family.queue (c, p)).linked.mem_iff t).mp ht⟩

theorem enqueue_totalCores (s : Mlfq τ) (me : ℕ) (t : τ) :
    (s.enqueue me t).totalCores = s.totalCores := by
  by_cases ht : s.tid t = 0
  · simp only [Mlfq.enqueue, if_pos ht]
  · exact (enqueue_fields me ht).2.2.2.2.1

theorem enqueue_state (me : ℕ) (ht : s.tid t ≠ 0) :
    (s.enqueue me t).state = update s.state t .ready := by
  unfold Mlfq.enqueue
  simp only [if_neg ht]
  by_cases hcpu : s.totalCores ≤ s.cpu t <;>
    by_cases hprio : s.priority t < 0 ∨ (mlfqLevels : ℤ) ≤ s.priority t <;>
    simp [hcpu, hprio, clampPriority, append, setQueue]

theorem popLevels_state {s s' : Mlfq τ} {c p n : ℕ}
    (h : s.popLevels c p n = some (t, s')) : s'.state = s.state := by
  induction n generalizing p with
  | zero => cases h
  | succ n ih =>
    unfold Mlfq.popLevels at h
    split at h
    · cases h
      rfl
    · exact ih h

theorem steal_state {s s' : Mlfq τ} {free : ℕ → Bool} {is : List ℕ}
    (h : s.steal me free is = some (t, s')) : s'.state = s.state := by
  induction is with
  | nil => cases h
  | cons i is ih =>
    unfold Mlfq.steal at h
    dsimp only at h
    split_ifs at h
    · exact ih h
    · exact ih h
    · split at h
      case h_1 u s1 heq =>
        cases h
        exact (popLevels_state heq : s1.state = s.state)
      case h_2 => exact ih h
    · exact ih h

theorem dequeue_state (s : Mlfq τ) (me : ℕ) (free : ℕ → Bool) :
    (s.dequeue me free).2.state = s.state := by
  unfold Mlfq.dequeue
  have hrefill : ∀ (s : Mlfq τ) t, (s.refill t).state = s.state := by
    intro s t
    unfold Mlfq.refill clampPriority
    split_ifs <;> rfl
  cases hown : s.popLevels me 0 mlfqLevels with
  | some r =>
    obtain ⟨t, s'⟩ := r
    exact (hrefill s' t).trans (popLevels_state hown)
  | none =>
    cases hother : s.steal me free (range s.totalCores) with
    | some r =>
      obtain ⟨t, s'⟩ := r
      exact (hrefill s' t).trans (steal_state hother)
    | none => rfl

omit [DecidableEq τ] in
theorem Rep.exists_fuel (h : s.Rep f) :
    ∃ fuel, ∀ k, k.2 ≠ 0 → (f k).length ≤ fuel := by
  refine ⟨∑ c ∈ Finset.range s.totalCores, load f c, fun k _ => ?_⟩
  cases hk : f k with
  | nil => exact Nat.zero_le _
  | cons t l =>
    obtain ⟨hc, hp⟩ := h.bound k t (hk ▸ mem_cons_self)
    rw [← hk]
    calc (f k).length ≤ load f k.1 :=
          single_le_sum (f := fun p => (f (k.1, p)).length) (fun _ _ => Nat.zero_le _)
            (Finset.mem_range.mpr hp)
      _ ≤ _ := single_le_sum (f := load f) (fun _ _ => Nat.zero_le _)
            (Finset.mem_range.mpr hc)

end Mlfq
end Doppio
