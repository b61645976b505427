import Doppio.Sched.Mlfq

/-! Runs of the feedback queues against the priority queue they stand for: a first-in first-out list
for each CPU and level. -/
namespace Doppio
open Function
open LinkedQueue List
namespace Mlfq
variable {τ : Type*} [DecidableEq τ]

/-- The queues, the lists they stand for, and the threads enqueued and not yet dequeued. -/
structure System (τ : Type*) where
  sched : Mlfq τ
  fifo : ℕ × ℕ → List τ
  queued : Set τ

inductive Event (τ : Type*) where
  | enqueue (me : ℕ) (t : τ)
  | dequeue (me : ℕ) (free : ℕ → Bool)
  | boost
  /-- other kernel code writes `t_priority` and `t_cpu` -/
  | tune (t : τ) (priority : ℤ) (cpu : ℕ)

structure Empty (s : Mlfq τ) : Prop where
  queues : ∀ k, s.queues k = ⟨none, none⟩
  count : ∀ c, s.threadCount c = 0
  awake : s.sleepHead = none

namespace System

def start (s : Mlfq τ) : System τ := ⟨s, fun _ => [], ∅⟩

/-- The source runs, and the lists change as a priority queue: a thread joins the list of its CPU
and level, a returned one leaves its list, a boost appends the lists of a CPU. -/
def Next (s : System τ) : Event τ → System τ → Prop
  | .enqueue me t, s' =>
    me < s.sched.totalCores ∧ s.sched.tid t ≠ 0 ∧ t ∉ s.queued ∧ s' = ⟨s.sched.enqueue me t,
        update s.fifo (s.sched.place me t) (s.fifo (s.sched.place me t) ++ [t]), insert t s.queued⟩
  | .dequeue me free, s' =>
    match s.sched.dequeue me free with
    | (some t, sched) => s' = ⟨sched, fun k => (s.fifo k).erase t, s.queued \ {t}⟩
    | (none, sched) => s' = ⟨sched, s.fifo, s.queued⟩
  | .boost, s' =>
    -- the loops end: every large enough bound on their turns gives the same result
    ∃ turns sched, (∀ fuel, turns ≤ fuel → s.sched.boost fuel = some sched) ∧
      s' = ⟨sched, boosted s.fifo, s.queued⟩
  | .tune t priority cpu, s' =>
    s' = { s with sched := { s.sched with
      priority := update s.sched.priority t priority
      cpu := update s.sched.cpu t cpu } }

/-- The queues hold the lists, and the lists hold what is queued. -/
structure Refines (s : System τ) : Prop where
  rep : s.sched.Rep s.fifo
  queued : ∀ t, t ∈ s.queued ↔ ∃ k, t ∈ s.fifo k

variable {s : Mlfq τ} {queued : Set τ}

omit [DecidableEq τ] in
theorem start_refines (h : s.Empty) : (start s).Refines where
  rep := by
    refine ⟨⟨fun k => ?_, fun i j t hi => absurd hi not_mem_nil⟩, fun k t ht => ?_, fun c => ?_,
      h.awake⟩
    · show IsQueue s.schedNext (s.queues k) []
      rw [h.queues]
      exact isQueue_nil _
    · exact absurd ht not_mem_nil
    · simp [start, h.count, load]
  queued := by simp [start]

variable {f : ℕ × ℕ → List τ}

theorem erase_oldest (h : s.Rep f) {c p : ℕ} {t : τ} {l : List τ}
    (hp : f (c, p) = t :: l) : (fun k => (f k).erase t) = update f (c, p) l := by
  funext k
  by_cases hk : k = (c, p)
  · subst hk
    simp [hp]
  · rw [update_of_ne hk]
    refine erase_of_not_mem fun ht => hk ?_
    exact h.family.apart k (c, p) t ht (hp ▸ mem_cons_self)

omit [DecidableEq τ] in
theorem mem_boosted (h : s.Rep f) (t : τ) :
    (∃ k, t ∈ boosted f k) ↔ ∃ k, t ∈ f k := by
  constructor
  · rintro ⟨⟨c, p⟩, ht⟩
    unfold boosted at ht
    dsimp only at ht
    split_ifs at ht
    · simp only [mem_append] at ht
      rcases ht with ((ht | ht) | ht) | ht <;> exact ⟨_, ht⟩
    · exact absurd ht not_mem_nil
  · rintro ⟨⟨c, p⟩, ht⟩
    have hp : p < 4 := (h.bound (c, p) t ht).2
    refine ⟨(c, 0), ?_⟩
    simp only [boosted, if_true, mem_append]
    interval_cases p <;> simp [ht]

theorem Refines.step {s s' : System τ} (h : s.Refines) {e : Event τ} (hstep : s.Next e s') :
    s'.Refines := by
  cases e with
  | enqueue me t =>
    obtain ⟨hme, htid, hnew, rfl⟩ := hstep
    have hnone : ∀ k, t ∉ s.fifo k := fun k hk => hnew ((h.queued t).mpr ⟨k, hk⟩)
    refine ⟨h.rep.enqueue hme htid hnone, fun u => ?_⟩
    rw [Set.mem_insert_iff, h.queued]
    constructor
    · rintro (rfl | ⟨k, hk⟩)
      · exact ⟨s.sched.place me u, by simp⟩
      · by_cases heq : k = s.sched.place me t
        · exact ⟨k, by subst heq; simp [hk]⟩
        · exact ⟨k, by simpa [heq] using hk⟩
    · rintro ⟨k, hk⟩
      by_cases heq : k = s.sched.place me t
      · subst heq
        simp only [update_self, mem_append, mem_singleton] at hk
        exact hk.symm.imp_right fun hu => ⟨_, hu⟩
      · exact .inr ⟨k, by simpa [heq] using hk⟩
  | dequeue me free =>
    simp only [Next] at hstep
    rcases h.rep.dequeue me free with ⟨c, p, t, l, hold, _, hret, hrep, _⟩ | ⟨_, hnone⟩
    · obtain ⟨r, sched, hdeq⟩ : ∃ r sched, s.sched.dequeue me free = (r, sched) := ⟨_, _, rfl⟩
      rw [hdeq] at hret hrep hstep
      obtain rfl : r = some t := hret
      subst hstep
      refine ⟨?_, fun u => ?_⟩
      · rw [erase_oldest h.rep hold.here]
        exact hrep
      · rw [erase_oldest h.rep hold.here, Set.mem_sdiff, Set.mem_singleton_iff, h.queued]
        constructor
        · rintro ⟨⟨k, hk⟩, hut⟩
          by_cases heq : k = (c, p)
          · subst heq
            rw [hold.here] at hk
            exact ⟨(c, p), by simpa [hut] using hk⟩
          · exact ⟨k, by simpa [heq] using hk⟩
        · rintro ⟨k, hk⟩
          refine ⟨?_, ?_⟩
          · by_cases heq : k = (c, p)
            · subst heq
              exact ⟨(c, p), by simp at hk; simp [hold.here, hk]⟩
            · exact ⟨k, by simpa [heq] using hk⟩
          · rintro rfl
            exact h.rep.family.popped hold.here k hk
    · rw [hnone] at hstep
      subst hstep
      exact h
  | boost =>
    obtain ⟨turns, sched, hboost, rfl⟩ := hstep
    obtain ⟨fuel, hfuel⟩ := h.rep.exists_fuel
    obtain ⟨sched', he, hrep, _⟩ := h.rep.boost
    have he := he (max turns fuel) fun k hk => (hfuel k hk).trans (le_max_right _ _)
    obtain rfl : sched = sched' :=
      Option.some.inj ((hboost _ (le_max_left _ _)).symm.trans he)
    refine ⟨hrep, fun t => ?_⟩
    rw [h.queued, mem_boosted h.rep]
  | tune t priority cpu =>
    subst hstep
    exact ⟨h.rep.congr rfl rfl rfl rfl rfl, h.queued⟩

def Holds (s : Mlfq τ) (queued : Set τ) : Prop := ∃ f, (⟨s, f, queued⟩ : System τ).Refines

omit [DecidableEq τ] in
theorem Holds.onQueue_iff (h : Holds s queued) (t : τ) :
    s.OnQueue t ↔ t ∈ queued := by
  obtain ⟨f, hf⟩ := h
  rw [hf.rep.onQueue_iff, ← hf.queued]

omit [DecidableEq τ] in
theorem holds_empty (h : s.Empty) : Holds s ∅ := ⟨_, start_refines h⟩

omit [DecidableEq τ] in
theorem Holds.congr {s s' : Mlfq τ} (h : Holds s queued)
    (hnext : s'.schedNext = s.schedNext) (hqueues : s'.queues = s.queues)
    (hcount : s'.threadCount = s.threadCount) (hsleep : s'.sleepHead = s.sleepHead)
    (hcores : s'.totalCores = s.totalCores) : Holds s' queued := by
  obtain ⟨f, hf⟩ := h
  exact ⟨f, hf.rep.congr hnext hqueues hcount hsleep hcores, hf.queued⟩

theorem Holds.enqueue (h : Holds s queued) {me : ℕ} {t : τ}
    (hme : me < s.totalCores) (ht : s.tid t ≠ 0) (hnew : t ∉ queued) :
    Holds (s.enqueue me t) (insert t queued) := by
  obtain ⟨f, hf⟩ := h
  exact ⟨_, hf.step (e := .enqueue me t) ⟨hme, ht, hnew, rfl⟩⟩

theorem Holds.dequeue (h : Holds s queued) (me : ℕ) (free : ℕ → Bool) :
    (∃ t ∈ queued, (s.dequeue me free).1 = some t ∧ Holds (s.dequeue me free).2 (queued \ {t}) ∧
      (s.dequeue me free).2.totalCores = s.totalCores ∧ (s.dequeue me free).2.tid = s.tid) ∨
    s.dequeue me free = (none, s) := by
  obtain ⟨f, hf⟩ := h
  rcases hf.rep.dequeue me free with ⟨c, p, t, l, hold, _, hret, _, hcores, htid⟩ | ⟨_, hnone⟩
  · have hhere : f (c, p) = t :: l := hold.here
    have hmem : t ∈ f (c, p) := hhere ▸ mem_cons_self
    refine .inl ⟨t, (hf.queued t).mpr ⟨(c, p), hmem⟩, hret, ?_, hcores, htid⟩
    refine ⟨fun k => (f k).erase t, hf.step (e := .dequeue me free) ?_⟩
    simp only [Next]
    split
    · rename_i u sched heq
      rw [heq] at hret
      obtain rfl : u = t := Option.some.inj hret
      rw [heq]
    · rename_i sched heq
      rw [heq] at hret
      cases hret
  · exact .inr hnone

theorem reaches_refines {s0 : Mlfq τ} (h0 : s0.Empty) {s : System τ}
    (h : Run.Reaches Next (fun _ _ => True) (start s0) s) : s.Refines :=
  h.invariant (fun _ _ _ hs _ hstep => hs.step hstep) (start_refines h0)

/-- Each queue is an acyclic list with its last thread as tail, the queued threads are those
enqueued and not yet dequeued, each in one place, `thread_count` is the number on its CPU modulo 2 ^
32, a dequeue on a CPU with threads returns the oldest of its first non-empty level, and a boost
returns. -/
theorem reaches_priority_fifo {s₀ : Mlfq τ} (h₀ : s₀.Empty) {s : System τ}
    (h : Run.Reaches Next (fun _ _ => True) (start s₀) s) :
    (∀ k, IsQueue s.sched.schedNext (s.sched.queues k) (s.fifo k)) ∧
      (∀ t, t ∈ s.queued ↔ ∃ k, t ∈ s.fifo k) ∧ (∀ j k t, t ∈ s.fifo j → t ∈ s.fifo k → j = k) ∧
      (∀ c, s.sched.threadCount c = BitVec.ofNat 32 (load s.fifo c)) ∧
      (∀ me p, s.fifo (me, p) ≠ [] →
        ∃ q t l, Oldest s.fifo me q t l ∧ ∀ free, (s.sched.dequeue me free).1 = some t) ∧
      ∃ s', s.Next .boost s' := by
  have hs := reaches_refines h₀ h
  refine ⟨hs.rep.family.queue, hs.queued, hs.rep.family.apart, hs.rep.count, fun me p hp => ?_, ?_⟩
  · obtain ⟨q, t, l, hold⟩ := exists_oldest hp
    refine ⟨q, t, l, hold, fun free => ?_⟩
    rcases hs.rep.dequeue me free with ⟨c, p', t', l', hold', hown, hret, _⟩ | ⟨hnone, _⟩
    · obtain rfl : c = me := by
        by_contra hne
        exact hp (hown hne p)
      rw [hret, hold'.unique hold]
    · exact absurd (hnone p) hp
  · obtain ⟨turns, hturns⟩ := hs.rep.exists_fuel
    obtain ⟨sched, hsched, _⟩ := hs.rep.boost
    exact ⟨_, turns, sched, fun fuel hfuel => hsched fuel fun k hk => (hturns k hk).trans hfuel, rfl⟩

end System

/-- One CPU; every number is a thread at level 0. -/
def plain : Mlfq ℕ where
  tid _ := 1
  state _ := .embryo
  schedNext _ := none
  ticks _ := 0
  priority _ := 0
  sliceLeft _ := 0
  cpu _ := 0
  queues _ := ⟨none, none⟩
  threadCount _ := 0
  sleepHead := none
  totalCores := 1

theorem plain_empty : plain.Empty := ⟨fun _ => rfl, fun _ => rfl, rfl⟩

/-- The fields that place a thread are those of `plain`. -/
structure Plain (s : Mlfq ℕ) : Prop where
  tid : s.tid = fun _ => 1
  priority : s.priority = fun _ => 0
  cpu : s.cpu = fun _ => 0
  totalCores : s.totalCores = 1

theorem Plain.place {s : Mlfq ℕ} (h : s.Plain) (t : ℕ) : s.place 0 t = (0, 0) := by
  simp [Mlfq.place, h.priority, h.cpu]

theorem Plain.enqueue {s : Mlfq ℕ} (h : s.Plain) (t : ℕ) : (s.enqueue 0 t).Plain := by
  obtain ⟨htid, hprio, hcpu, hcores⟩ := h
  constructor <;>
    simp [Mlfq.enqueue, clampPriority, append, setQueue, htid, hprio, hcpu, hcores]

namespace System

theorem plain_reaches (n : ℕ) : ∃ s : System ℕ,
    Run.Reaches Next (fun _ _ => True) (start plain) s ∧ s.sched.Plain ∧
      s.fifo = update (fun _ => []) (0, 0) (List.range n) ∧ s.queued = {t | t < n} := by
  induction n with
  | zero =>
    refine ⟨start plain, .refl _, ⟨rfl, rfl, rfl, rfl⟩, ?_, ?_⟩
    · simp [start]
    · simp [start]
  | succ n ih =>
    obtain ⟨s, hreach, hplain, hfifo, hqueued⟩ := ih
    refine ⟨_, hreach.trans (.single (.enqueue 0 n) trivial ⟨?_, ?_, ?_, rfl⟩), hplain.enqueue n, ?_, ?_⟩
    · simp [hplain.totalCores]
    · simp [hplain.tid]
    · simp [hqueued]
    · simp [hplain.place, hfifo, range_succ]
    · ext t
      simp only [hqueued, Set.mem_insert_iff, Set.mem_ofPred]
      omega

theorem load_range (n : ℕ) :
    load (update (fun _ => []) (0, 0) (List.range n) : ℕ × ℕ → List ℕ) 0 = n := by
  simp [load, mlfqLevels, Finset.sum_range_succ]

theorem reaches_priority_fifo_three : ∃ s : System ℕ,
    plain.Empty ∧ s.fifo = update (fun _ => []) (0, 0) [0, 1, 2] ∧
      ∀ t, t ∈ s.queued ↔ ∃ k, t ∈ s.fifo k := by
  obtain ⟨s, hreach, _, hfifo, _⟩ := plain_reaches 3
  exact ⟨s, plain_empty, hfifo, (reaches_priority_fifo plain_empty hreach).2.1⟩

/-- With 2 ^ 32 threads on one CPU its `thread_count` is 0. -/
theorem threadCount_wraps : ∃ s : System ℕ,
    plain.Empty ∧ Run.Reaches Next (fun _ _ => True) (start plain) s ∧
      (s.sched.threadCount 0).toNat ≠ load s.fifo 0 := by
  obtain ⟨s, hreach, _, hfifo, _⟩ := plain_reaches (2 ^ 32)
  refine ⟨s, plain_empty, hreach, ?_⟩
  have hload : load s.fifo 0 = 2 ^ 32 := by rw [hfifo, load_range]
  rw [(reaches_refines plain_empty hreach).rep.count, hload]
  decide

end System
end Mlfq
end Doppio
