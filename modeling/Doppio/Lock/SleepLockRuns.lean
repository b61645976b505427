import Doppio.Lock.SleepLocks
import Doppio.Sched.WaitRuns

/-! Runs of the sleeping locks: when the wait queues and the run queues stay well formed. -/
namespace Doppio
open Function Option
open List
namespace Threads
variable {τ ω : Type*} [DecidableEq τ] {s : Threads τ ω} {Q : Set τ}

/-- On no run queue, executing nowhere. -/
structure Asleep (s : Threads τ ω) (Q : Set τ) (t : τ) : Prop where
  waiting : s.sched.state t = .waiting
  off : t ∉ Q
  tid : s.sched.tid t ≠ 0
  alive : s.alive t = true
  idle : ∀ c < s.sched.totalCores, ¬ s.Executing c t

theorem Sound.miSwitch_frame (h : s.Sound Q) {c : ℕ} (hc : c < s.sched.totalCores)
    (free : ℕ → Bool) :
    ((s.miSwitch c free).sched.totalCores = s.sched.totalCores ∧
      (s.miSwitch c free).sched.tid = s.sched.tid ∧ (s.miSwitch c free).alive = s.alive) ∧
    (∀ d ≠ c, (s.miSwitch c free).current d = s.current d ∧
      (s.miSwitch c free).prevThread d = s.prevThread d) ∧
    (∀ t ∉ Q, s.sched.tid t ≠ 0 → (s.miSwitch c free).current c ≠ t ∧
      (s.miSwitch c free).sched.state t = s.sched.state t) ∧
    ∀ t, (s.miSwitch c free).sched.state t = s.sched.state t ∨
      (s.miSwitch c free).sched.state t = .running := by
  have hupdate (f : τ → ThreadState) (u t : τ) :
      update f u .running t = f t ∨ update f u .running t = .running := by
    by_cases hut : t = u
    · exact .inr (by rw [hut, update_self])
    · exact .inl (update_of_ne hut _ _)
  rcases h.miSwitch_eq hc free with ⟨t, htQ, sched, -, hcores, htids, hstate, he⟩ | ⟨-, he⟩ | ⟨hidle, he⟩
  · rw [he]
    refine ⟨⟨hcores, htids, rfl⟩, fun d hd => ?_, fun u hu _ => ?_, fun u => ?_⟩
    · simp [Threads.resume, hd]
    · have hut : u ≠ t := fun e => hu (e ▸ htQ)
      simp [Threads.resume, Threads.setState, hut, hut.symm, hstate]
    · rw [← hstate]
      exact hupdate sched.state t u
  · rw [he]
    refine ⟨⟨rfl, rfl, rfl⟩, fun d hd => ?_, fun u _ htid => ?_, hupdate s.sched.state (s.idle c)⟩
    · simp [Threads.resume, hd]
    · have hut : u ≠ s.idle c := fun e => htid (e ▸ h.idle_tid c)
      simp [Threads.resume, Threads.setState, hut, hut.symm]
  · rw [he]
    refine ⟨⟨rfl, rfl, rfl⟩, fun d _ => ⟨rfl, rfl⟩, fun u _ htid => ?_, hupdate s.sched.state (s.idle c)⟩
    have hut : u ≠ s.idle c := fun e => htid (e ▸ h.idle_tid c)
    simp [Threads.setState, hidle, hut, hut.symm]

theorem postSwitchHook_frame (s : Threads τ ω) (c : ℕ) :
    ((s.postSwitchHook c).sched.totalCores = s.sched.totalCores ∧
      (s.postSwitchHook c).sched.tid = s.sched.tid ∧ (s.postSwitchHook c).current = s.current ∧
      (s.postSwitchHook c).prevThread = update s.prevThread c none) ∧
    (∀ t, s.sched.state t = .waiting → (s.postSwitchHook c).sched.state t = .waiting ∧
      (s.postSwitchHook c).alive t = s.alive t) ∧
    ∀ t, (s.postSwitchHook c).sched.state t = s.sched.state t ∨
      (s.postSwitchHook c).sched.state t = .ready := by
  unfold Threads.postSwitchHook
  cases hp : s.prevThread c with
  | none =>
    refine ⟨⟨rfl, rfl, rfl, ?_⟩, fun t ht => ⟨ht, rfl⟩, fun t => .inl rfl⟩
    exact (Function.update_eq_self_iff.mpr hp.symm).symm
  | some last =>
    dsimp only
    split_ifs with hrun hzombie
    · obtain ⟨-, -, -, -, hcores, htids⟩ := Mlfq.enqueue_fields (s := s.sched) c hrun.2
      have hstate := Mlfq.enqueue_state (s := s.sched) c hrun.2
      refine ⟨⟨hcores, htids, rfl, rfl⟩, fun t ht => ⟨?_, rfl⟩, fun t => ?_⟩
      · have hne : t ≠ last := by
          rintro rfl
          rw [hrun.1] at ht
          cases ht
        rw [hstate, update_of_ne hne, ht]
      · rw [hstate]
        by_cases hne : t = last
        · exact .inr (by rw [hne, update_self])
        · exact .inl (update_of_ne hne _ _)
    · refine ⟨⟨rfl, rfl, rfl, rfl⟩, fun t ht => ⟨ht, ?_⟩, fun t => .inl rfl⟩
      have hne : t ≠ last := by
        rintro rfl
        rw [hzombie] at ht
        cases ht
      exact update_of_ne hne _ _
    · exact ⟨⟨rfl, rfl, rfl, rfl⟩, fun t ht => ⟨ht, rfl⟩, fun t => .inl rfl⟩

theorem Sound.switch (h : s.Sound Q) (hprev : ∀ d, s.prevThread d = none) {c : ℕ}
    (hc : c < s.sched.totalCores) (free : ℕ → Bool) :
    ∃ Q', ((s.miSwitch c free).postSwitchHook c).Sound Q' ∧
      (∀ d, ((s.miSwitch c free).postSwitchHook c).prevThread d = none) ∧
      (∀ t, s.sched.state t ≠ .sleep →
        ((s.miSwitch c free).postSwitchHook c).sched.state t ≠ .sleep) ∧
      ∀ t, s.sched.state t = .waiting → t ∉ Q → s.sched.tid t ≠ 0 → s.alive t = true →
        (∀ d < s.sched.totalCores, d ≠ c → s.current d ≠ t) →
        ((s.miSwitch c free).postSwitchHook c).Asleep Q' t := by
  obtain ⟨⟨hcores, htids, halive⟩, hother, hkeep, hstate⟩ := h.miSwitch_frame hc free
  obtain ⟨⟨hcores', htids', hcurrent', hprev'⟩, hwaiting', hstate'⟩ :=
    (s.miSwitch c free).postSwitchHook_frame c
  obtain ⟨Q1, hQ1, h1, -⟩ := h.miSwitch hc (hprev c) free
  obtain ⟨Q2, hQ2, h2, -⟩ := h1.postSwitchHook (c := c) (by rwa [hcores])
  have hnone : ∀ d, ((s.miSwitch c free).postSwitchHook c).prevThread d = none := by
    intro d
    rw [hprev']
    by_cases hdc : d = c
    · rw [hdc, update_self]
    · rw [update_of_ne hdc, (hother d hdc).2, hprev]
  refine ⟨Q2, h2, hnone, fun t ht => ?_, fun t hwaiting hoff htid hlive hd => ?_⟩
  · rcases hstate' t with e | e
    · rw [e]
      rcases hstate t with e | e
      · rwa [e]
      · rw [e]
        decide
    · rw [e]
      decide
  · obtain ⟨hcur, hst⟩ := hkeep t hoff htid
    rw [hwaiting] at hst
    obtain ⟨hst', hlive'⟩ := hwaiting' t hst
    refine ⟨hst', fun hmem => ?_, by rwa [htids', htids], by rwa [hlive', halive], ?_⟩
    · rcases hQ2 t hmem with hmem | ⟨-, hrun⟩
      · exact hoff (hQ1 hmem)
      · rw [hst] at hrun
        cases hrun
    · rintro d hd' (hexec | hexec)
      · rw [hcurrent'] at hexec
        by_cases hdc : d = c
        · exact hcur (hdc ▸ hexec)
        · rw [(hother d hdc).1] at hexec
          exact hd d (by rwa [hcores', hcores] at hd') hdc hexec
      · rw [hnone] at hexec
        cases hexec

end Threads

namespace SleepLocks

theorem waitNode_eq_none {τ : Type*} (s : Threads τ Empty) (t : τ) : s.waitNode t = none := by
  cases s.waitNode t with
  | none => rfl
  | some q => exact q.elim

variable {τ μ ρ ι : Type*} {s s' : SleepLocks τ μ ρ ι} {Q : Set τ} {f : SleepQueue μ ρ ι → List τ}

def nodes (f : SleepQueue μ ρ ι → List τ) (q : SleepQueue μ ρ ι) : List (SleepNode τ μ ρ ι) :=
  (f q).map .thread

/-- The run queues hold `Q`, the wait queues the lists `f` of sleeping threads. -/
structure Sound (s : SleepLocks τ μ ρ ι) (Q : Set τ) (f : SleepQueue μ ρ ι → List τ) : Prop where
  threads : s.threads.Sound Q
  settled : ∀ c, s.threads.prevThread c = none
  awake : ∀ t, s.threads.sched.state t ≠ .sleep
  rings : s.links.Rings .head (nodes f)
  asleep : ∀ q, ∀ t ∈ f q, s.threads.Asleep Q t

variable {q : SleepQueue μ ρ ι}

section
variable (h : s.Sound Q f)
include h

theorem Sound.congr (hthreads : s'.threads = s.threads)
    (hlinks : s'.links = s.links) : s'.Sound Q f := by
  refine ⟨?_, ?_, ?_, ?_, ?_⟩
  · rw [hthreads]
    exact h.threads
  · rw [hthreads]
    exact h.settled
  · rw [hthreads]
    exact h.awake
  · rw [hlinks]
    exact h.rings
  · rw [hthreads]
    exact h.asleep

theorem Sound.apart {q' : SleepQueue μ ρ ι} {t : τ} (hq : t ∈ f q)
    (hq' : t ∈ f q') : q = q' := by
  apply h.rings.apart q q' (.thread t)
  · exact mem_cons_of_mem _ (mem_map_of_mem hq)
  · exact mem_cons_of_mem _ (mem_map_of_mem hq')

theorem Sound.nodup (q : SleepQueue μ ρ ι) : (f q).Nodup :=
  List.Nodup.of_map _ (List.nodup_cons.mp (h.rings.ring q).nodup).2

theorem Sound.next_head (q : SleepQueue μ ρ ι) :
    s.links.next (.head q) = some (ListHeap.firstOf (.head q) (nodes f q)) :=
  (h.rings.ring q).next_head

end

/-- Every lock is initialised, every CPU runs its idle thread. -/
structure Booted (s : SleepLocks τ μ ρ ι) : Prop where
  threads : s.threads.Booted
  awake : ∀ t, s.threads.sched.state t ≠ .sleep
  next : ∀ q, s.links.next (.head q) = some (.head q)
  prev : ∀ q, s.links.prev (.head q) = some (.head q)

theorem Booted.sound (h : s.Booted) : s.Sound ∅ fun _ => [] := by
  refine ⟨h.threads.sound, h.threads.prevThread, h.awake, ⟨fun q => ⟨?_, ?_⟩, ?_⟩, nofun⟩
  · simp [nodes]
  · simp [nodes, ListHeap.Link, h.next, h.prev]
  · intro q q' x hx hx'
    simp only [nodes, map_nil, mem_singleton] at hx hx'
    rw [hx] at hx'
    exact SleepNode.head.inj hx'

variable [DecidableEq τ] [DecidableEq μ] [DecidableEq ρ] [DecidableEq ι] {c : ℕ}

omit [DecidableEq τ] in
theorem nodes_update (f : SleepQueue μ ρ ι → List τ) (q : SleepQueue μ ρ ι) (l : List τ) :
    nodes (update f q l) = update (nodes f) q (l.map .thread) := by
  funext q'
  by_cases hq : q' = q <;> simp [nodes, hq]

variable {free : ℕ → Bool}

section
variable (h : s.Sound Q f)
include h

theorem Sound.empty_iff (q : SleepQueue μ ρ ι) : s.empty q = true ↔ f q = [] := by
  rw [SleepLocks.empty, ListHeap.listEmpty, h.next_head q]
  cases hq : f q with
  | nil => simp [nodes, hq, ListHeap.firstOf]
  | cons t l => simp [nodes, hq, ListHeap.firstOf]

section
variable (hc : c < s.threads.sched.totalCores)
include hc

omit [DecidableEq μ] [DecidableEq ρ] [DecidableEq ι] in
theorem Sound.enqueue {t : τ}
    (htid : s.threads.sched.tid t ≠ 0) (halive : s.threads.alive t = true) (hoff : t ∉ Q)
    (hidle : ∀ d < s.threads.sched.totalCores, ¬ s.threads.Executing d t) (hf : ∀ q, t ∉ f q) :
    { s with threads := { s.threads with sched := s.threads.sched.enqueue c t } }.Sound
      (insert t Q) f := by
  obtain ⟨-, -, -, -, hcores, htids⟩ := Mlfq.enqueue_fields c htid
  have hstate := Mlfq.enqueue_state c htid
  refine ⟨h.threads.enqueue hc htid halive hoff hidle (waitNode_eq_none _ t) fun q => q.elim,
    h.settled, ?_, h.rings, ?_⟩
  · intro u
    simp only [hstate]
    by_cases hut : u = t
    · rw [hut, update_self]
      decide
    · rw [update_of_ne hut]
      exact h.awake u
  · intro q u hu
    obtain ⟨hwaiting, huoff, hutid, hualive, huidle⟩ := h.asleep q u hu
    have hut : u ≠ t := fun e => hf q (e ▸ hu)
    refine ⟨?_, ?_, ?_, hualive, ?_⟩
    · simpa only [hstate, update_of_ne hut] using hwaiting
    · rw [Set.mem_insert_iff, not_or]
      exact ⟨hut, huoff⟩
    · simpa only [htids] using hutid
    · intro d hd
      rw [hcores] at hd
      exact huidle d hd

theorem Sound.wakeFirst
    {t : τ} {l : List τ} (hq : f q = t :: l) :
    ∃ s', s.wakeFirst c q = some s' ∧ s'.Sound (insert t Q) (update f q l) ∧
      s'.threads.sched.totalCores = s.threads.sched.totalCores := by
  have ht : t ∈ f q := hq ▸ mem_cons_self
  obtain ⟨-, hoff, htid, halive, hidle⟩ := h.asleep q t ht
  have hnodup : t ∉ l := by
    have hnodup := h.nodup q
    rw [hq] at hnodup
    exact (List.nodup_cons.mp hnodup).1
  have hnext : s.links.next (.head q) = some (.thread t) := by
    rw [h.next_head, nodes, hq]
    rfl
  obtain ⟨links, hdel, hrings⟩ := h.rings.delFirst (q := q) (x := .thread t)
    (show nodes f q = .thread t :: l.map .thread by rw [nodes, hq, map_cons])
  rw [← nodes_update] at hrings
  have hgone : ∀ q', t ∉ update f q l q' := by
    intro q' hmem
    by_cases hqq : q' = q
    · rw [hqq, update_self] at hmem
      exact hnodup hmem
    · rw [update_of_ne hqq] at hmem
      exact hqq (h.apart hmem ht)
  have hstay : ∀ q', ∀ u ∈ update f q l q', u ∈ f q' := by
    intro q' u hu
    by_cases hqq : q' = q
    · subst hqq
      rw [update_self] at hu
      rw [hq]
      exact mem_cons_of_mem t hu
    · rwa [update_of_ne hqq] at hu
  have hready : { s with links := links, threads := s.threads.setState t .ready }.Sound Q
      (update f q l) := by
    refine ⟨h.threads.setState (waitNode_eq_none _ t) (fun q => q.elim) .ready (by decide),
      h.settled, ?_, hrings, ?_⟩
    · intro u
      by_cases hut : u = t
      · simp [Threads.setState, hut]
      · simpa [Threads.setState, hut] using h.awake u
    · intro q' u hu
      have hut : u ≠ t := fun e => hgone q' (e ▸ hu)
      have hu' := h.asleep q' u (hstay q' u hu)
      refine { hu' with waiting := ?_ }
      simpa [Threads.setState, hut] using hu'.waiting
  refine ⟨_, ?_, hready.enqueue hc htid halive hoff hidle hgone, ?_⟩
  · simp only [SleepLocks.wakeFirst, hnext, hdel, map_some]
  · exact Mlfq.enqueue_totalCores _ c t

/-- The loop that wakes all waiters takes as many turns as there are waiters. -/
theorem Sound.wakeAll
    (q : SleepQueue μ ρ ι) :
    ∃ s' Q' f', s'.Sound Q' f' ∧ (∀ fuel, (f q).length ≤ fuel → wakeAll c q fuel s = some s') ∧
      ∀ fuel r, wakeAll c q fuel s = some r → r = s' := by
  induction hq : f q generalizing s Q f with
  | nil =>
    have hempty := (h.empty_iff q).mpr hq
    have he : ∀ fuel, SleepLocks.wakeAll c q fuel s = some s := by
      intro fuel
      cases fuel with
      | zero => rw [SleepLocks.wakeAll, if_pos hempty]
      | succ fuel => rw [SleepLocks.wakeAll, if_pos hempty]
    refine ⟨s, Q, f, h, fun fuel _ => he fuel, fun fuel r hr => ?_⟩
    rw [he] at hr
    exact (some.inj hr).symm
  | cons t l ih =>
    have hempty : ¬ s.empty q = true := by
      rw [h.empty_iff, hq]
      exact cons_ne_nil t l
    obtain ⟨s1, he, h1, hcores⟩ := h.wakeFirst hc hq
    have hsucc : ∀ fuel, SleepLocks.wakeAll c q (fuel + 1) s = SleepLocks.wakeAll c q fuel s1 := by
      intro fuel
      rw [SleepLocks.wakeAll, if_neg hempty, he, bind_some]
    obtain ⟨s', Q', f', h', hret, hall⟩ := ih h1 (by rwa [hcores]) (update_self ..)
    refine ⟨s', Q', f', h', fun fuel hfuel => ?_, fun fuel r hr => ?_⟩
    · cases fuel with
      | zero => exact absurd hfuel (by simp)
      | succ fuel =>
        rw [hsucc]
        exact hret fuel (by simpa using hfuel)
    · cases fuel with
      | zero =>
        rw [SleepLocks.wakeAll, if_neg hempty] at hr
        cases hr
      | succ fuel =>
        rw [hsucc] at hr
        exact hall fuel r hr

omit [DecidableEq μ] [DecidableEq ρ] [DecidableEq ι] in
theorem Sound.preempt (free : ℕ → Bool) :
    ∃ Q', { s with threads := (s.threads.miSwitch c free).postSwitchHook c }.Sound Q' f := by
  obtain ⟨Q', h', hsettled, hawake, hasleep⟩ := h.threads.switch h.settled hc free
  refine ⟨Q', h', hsettled, fun t => hawake t (h.awake t), h.rings, fun q t ht => ?_⟩
  have hu := h.asleep q t ht
  exact hasleep t hu.waiting hu.off hu.tid hu.alive fun d hd _ hcur => hu.idle d hd (.inl hcur)

theorem Sound.wake
    (hq : ¬ s.empty q = true) (he : s.wakeFirst c q = some s') :
    ∃ Q' f', s'.Sound Q' f' := by
  rw [h.empty_iff] at hq
  obtain ⟨t, l, hl⟩ := exists_cons_of_ne_nil hq
  obtain ⟨r, hr, h', -⟩ := h.wakeFirst hc hl
  rw [he] at hr
  cases hr
  exact ⟨_, _, h'⟩

theorem Sound.wakeWaiter (r : ρ)
    (he : s.wakeWaiter c r = some s') : ∃ Q' f', s'.Sound Q' f' := by
  unfold SleepLocks.wakeWaiter at he
  split_ifs at he with hwriters hreaders
  · exact h.wake hc (by simpa using hwriters) he
  · exact h.wake hc (by simpa using hreaders) he
  · cases he
    exact ⟨Q, f, h⟩

theorem Sound.call (k : Call μ ρ)
    (he : s.call c k = some s') : ∃ Q' f', s'.Sound Q' f' := by
  cases k with
  | mutexLock m =>
    cases he
    exact ⟨Q, f, h.congr rfl rfl⟩
  | mutexUnlock m =>
    have hset : (s.setMutex m ⟨false, none⟩).Sound Q f := h.congr rfl rfl
    simp only [SleepLocks.call, mutexUnlock] at he
    split_ifs at he with hempty
    · exact hset.wake hc (by simpa using hempty) he
    · cases he
      exact ⟨Q, f, hset⟩
  | downRead r =>
    cases he
    exact ⟨Q, f, h.congr rfl rfl⟩
  | upRead r =>
    have hset : (s.setRwsem r { s.rwsem r with count := (s.rwsem r).count - 1 }).Sound Q f :=
      h.congr rfl rfl
    simp only [SleepLocks.call, upRead] at he
    split_ifs at he with hzero
    · exact hset.wakeWaiter hc r he
    · cases he
      exact ⟨Q, f, hset⟩
  | downWrite r =>
    cases he
    exact ⟨Q, f, h.congr rfl rfl⟩
  | upWrite r =>
    have hset : (s.setRwsem r ⟨0, none⟩).Sound Q f := h.congr rfl rfl
    exact hset.wakeWaiter hc r he
  | downgradeWrite r =>
    cases he
    exact ⟨Q, f, h.congr rfl rfl⟩
  | semop semid sops copied =>
    cases he
    refine ⟨Q, f, h.congr ?_ ?_⟩
    all_goals
      unfold SleepLocks.semop
      split_ifs
      · rfl
      · rfl
      · split <;> rfl

section
variable (htid : s.threads.sched.tid (s.threads.current c) ≠ 0)
include htid

theorem Sound.block
    (free : ℕ → Bool)
    (q : SleepQueue μ ρ ι) (he : s.block c free q = some s') : ∃ Q' f', s'.Sound Q' f' := by
  have hexec : s.threads.Executing c (s.threads.current c) := .inl rfl
  have hoff := h.threads.off c hc _ hexec
  have halive := h.threads.executing c hc _ hexec htid
  have hf : ∀ q', s.threads.current c ∉ f q' := fun q' hmem => (h.asleep q' _ hmem).idle c hc hexec
  have hnew : ∀ q', SleepNode.thread (s.threads.current c) ∉ SleepNode.head q' :: nodes f q' := by
    intro q'
    simpa [nodes] using hf q'
  obtain ⟨links, hadd, hrings⟩ := h.rings.addTail hnew q
  have hmap : nodes f q ++ [.thread (s.threads.current c)] =
      (f q ++ [s.threads.current c]).map .thread := by simp [nodes]
  rw [hmap, ← nodes_update] at hrings
  have hwaiting : (s.threads.setState (s.threads.current c) .waiting).Sound Q :=
    h.threads.setState (waitNode_eq_none _ _) (fun q => q.elim) .waiting (by decide)
  obtain ⟨Q', h', hsettled, hawake, hasleep⟩ := hwaiting.switch h.settled hc free
  simp only [SleepLocks.block, hadd, map_some, some.injEq] at he
  subst he
  refine ⟨Q', _, h', hsettled, fun t => hawake t ?_, hrings, fun q' t ht => ?_⟩
  · by_cases hct : t = s.threads.current c
    · simp [Threads.setState, hct]
    · simpa [Threads.setState, hct] using h.awake t
  · have hcases : t = s.threads.current c ∨ t ∈ f q' := by
      by_cases hqq : q' = q
      · subst hqq
        rw [update_self, mem_append, mem_singleton] at ht
        exact ht.symm
      · rw [update_of_ne hqq] at ht
        exact .inr ht
    rcases hcases with rfl | ht
    · refine hasleep _ (by simp [Threads.setState]) hoff htid halive fun d hd hdc hcur => hdc ?_
      exact h.threads.alone d hd c hc _ (.inl hcur) hexec
    · have hu := h.asleep q' t ht
      have hct : t ≠ s.threads.current c := fun e => hf q' (e ▸ ht)
      refine hasleep t ?_ hu.off hu.tid hu.alive fun d hd _ hcur => hu.idle d hd (.inl hcur)
      simpa [Threads.setState, hct] using hu.waiting

theorem Sound.goOnOrBlock
    {p : Prop} [Decidable p]
    {r : SleepLocks τ μ ρ ι}
    (he : (if p then some r else s.block c free q) = some s') (hthreads : r.threads = s.threads)
    (hlinks : r.links = s.links) : ∃ Q' f', s'.Sound Q' f' := by
  split_ifs at he with hp
  · cases he
    exact ⟨Q, f, h.congr hthreads hlinks⟩
  · exact h.block hc htid free q he

theorem Sound.semopTurn
    {fuel : ℕ} {i : ι}
    {sops : List SemBuf} (he : s.semopTurn c free fuel i sops = some s') :
    ∃ Q' f', s'.Sound Q' f' := by
  unfold SleepLocks.semopTurn at he
  by_cases hactive : (!(s.semSet i).active) = true
  · rw [if_pos hactive] at he
    cases he
    exact ⟨Q, f, h.congr rfl rfl⟩
  rw [if_neg hactive] at he
  cases hcheck : (s.semSet i).check sops with
  | tooBig =>
    rw [hcheck] at he
    cases he
    exact ⟨Q, f, h.congr rfl rfl⟩
  | canSucceed =>
    rw [hcheck] at he
    obtain ⟨r, hr, rfl⟩ := map_eq_some_iff.mp he
    have hset : (s.setSemSet i (sops.foldl SemSet.apply (s.semSet i))).Sound Q f := h.congr rfl rfl
    obtain ⟨s1, Q1, f1, h1, -, hall⟩ := hset.wakeAll hc (.sem i)
    obtain rfl := hall fuel r hr
    exact ⟨Q1, f1, h1.congr rfl rfl⟩
  | mustWait =>
    rw [hcheck] at he
    exact h.goOnOrBlock hc htid he rfl rfl

theorem Sound.turn
    {fuel : ℕ}
    (he : s.turn c free fuel = some s') : ∃ Q' f', s'.Sound Q' f' := by
  unfold SleepLocks.turn at he
  split at he
  · cases he
  · exact h.goOnOrBlock hc htid he rfl rfl
  · exact h.goOnOrBlock hc htid he rfl rfl
  · exact h.goOnOrBlock hc htid he rfl rfl
  · exact h.semopTurn hc htid he

end

end

end

/-- No signal to a thread that sleeps on a wait queue; no idle thread takes a turn of a blocking
call. -/
def Undisturbed (s : SleepLocks τ μ ρ ι) : Event τ μ ρ → Prop
  | .signalWakeup _ t _ => s.threads.sched.state t ≠ .waiting
  | .turn c _ _ => s.threads.sched.tid (s.threads.current c) ≠ 0
  | _ => True

theorem Sound.step (h : s.Sound Q f) {e : Event τ μ ρ} (hok : s.Undisturbed e)
    (he : s.step e = some s') : ∃ Q' f', s'.Sound Q' f' := by
  unfold SleepLocks.step at he
  split_ifs at he with hc
  cases e with
  | spawn c t =>
    simp only [stepOn] at he
    split_ifs at he with hnew
    cases he
    obtain ⟨hoff, -, hidle⟩ := h.threads.nowhere hnew.1 hnew.2
    have hf : ∀ q, t ∉ f q := by
      intro q ht
      rw [(h.asleep q t ht).alive] at hnew
      cases hnew.1
    have hcreate : ({ s with threads := { s.threads with
        alive := update s.threads.alive t true } } : SleepLocks τ μ ρ ι).Sound Q f := by
      refine ⟨h.threads.create t, h.settled, h.awake, h.rings, fun q u hu => ?_⟩
      have hut : u ≠ t := fun e => hf q (e ▸ hu)
      have hu' := h.asleep q u hu
      exact { hu' with alive := (update_of_ne hut _ _).trans hu'.alive }
    exact ⟨_, f, hcreate.enqueue hc hnew.2 (update_self ..) hoff hidle hf⟩
  | preempt c free =>
    cases he
    obtain ⟨Q', h'⟩ := h.preempt hc free
    exact ⟨Q', f, h'⟩
  | call c k =>
    simp only [stepOn] at he
    split_ifs at he
    exact h.call hc k he
  | turn c free fuel => exact h.turn hc hok he
  | signalWakeup c t fuel =>
    obtain ⟨sched, hsched, rfl⟩ := map_eq_some_iff.mp he
    have hsame : sched = s.threads.sched := by
      have hawake := h.awake t
      unfold Mlfq.signalWakeup at hsched
      split at hsched
      · contradiction
      · contradiction
      · exact (some.inj hsched).symm
    rw [hsame]
    exact ⟨Q, f, h⟩


variable {s0 : SleepLocks τ μ ρ ι}

theorem reaches_sound (h0 : s0.Booted)
    (h : Run.Reaches Next Undisturbed s0 s) : ∃ Q f, s.Sound Q f := by
  apply h.invariant (I := fun s => ∃ Q f, s.Sound Q f)
  · rintro s e s' ⟨Q, f, hs⟩ hok hstep
    exact hs.step hok hstep
  · exact ⟨∅, _, h0.sound⟩

instance (s : SleepLocks τ μ ρ ι) (e : Event τ μ ρ) : Decidable (s.Undisturbed e) := by
  cases e <;> unfold Undisturbed <;> infer_instance

end SleepLocks
end Doppio
