import Doppio.Sched.WaitQueue

/-! Runs of waiting and waking: when no thread is on a run queue while it executes, and none is
dropped. -/
namespace Doppio
open Function
namespace Threads
variable {τ ω : Type*} [DecidableEq τ]

section
variable (s : Threads τ ω)

/-- A wake-up takes off the queue only threads that execute nowhere. -/
def Settled : Event τ ω → Prop
  | .wakeUp _ q => ∀ t ∈ (s.waitq q).head?, ∀ c < s.sched.totalCores, ¬ s.Executing c t
  | .wakeUpAll _ q => ∀ t ∈ s.waitq q, ∀ c < s.sched.totalCores, ¬ s.Executing c t
  | _ => True

/-- A thread switched away from is running, on a wait queue, or has exited. -/
def Kept : Event τ ω → Prop
  | .yield c _ => s.Keeps c
  | .preempt c _ => s.Keeps c
  | _ => True

theorem setPc_miSwitch (t : τ) (pc : WaitPc ω) (c : ℕ) (free : ℕ → Bool) :
    (s.setPc t pc).miSwitch c free = (s.miSwitch c free).setPc t pc := by
  unfold Threads.miSwitch
  by_cases hstay : s.current c = (s.sched.dequeue c free).1.getD (s.idle c) ∧
      (s.sched.dequeue c free).2.state (s.current c) ≠ .zombie
  · refine (if_pos hstay).trans ?_
    rw [if_pos hstay]
    rfl
  · refine (if_neg hstay).trans ?_
    rw [if_neg hstay]
    rfl

end

variable {s : Threads τ ω} {Q : Set τ}

section
variable (h : s.Sound Q)
include h

theorem Sound.setAgain {t : τ} (q : ω)
    (hpc : s.pc t ≠ .out) (hcur : ∀ c < s.sched.totalCores, s.current c ≠ t) :
    (s.setPc t (.again q)).Sound Q := by
  have hother : ∀ u, u ≠ t → (s.setPc t (.again q)).pc u = s.pc u := by
    intro u hu
    simp [setPc, hu]
  have hself : (s.setPc t (.again q)).pc t = .again q := by simp [setPc]
  refine { h with
    setting := fun u q' hu => ?_
    returned := fun c hc q' hq' => ?_
    outside := fun u hu => ?_
    inside := fun u hu => ?_
    exited := fun u hu => ?_ }
  · have hut : u ≠ t := by
      rintro rfl
      rw [hself] at hu
      cases hu
    rw [hother u hut] at hu
    exact h.setting u q' hu
  · replace hq' : (s.setPc t (.again q)).pc (s.current c) = .again q' := hq'
    rw [hother _ (hcur c hc)] at hq'
    exact h.returned c hc q' hq'
  · have hut : u ≠ t := by
      rintro rfl
      rw [hself] at hu
      cases hu
    rw [hother u hut] at hu
    exact h.outside u hu
  · by_cases hut : u = t
    · exact hut ▸ h.inside t hpc
    · rw [hother u hut] at hu
      exact h.inside u hu
  · have hut : u ≠ t := by
      rintro rfl
      exact hpc (h.exited u hu).1
    rw [hother u hut]
    exact h.exited u hu

theorem Sound.miSwitch_prev {c : ℕ}
    (hc : c < s.sched.totalCores) (htid : s.sched.tid (s.current c) ≠ 0) (free : ℕ → Bool) :
    (s.miSwitch c free).prevThread c = some (s.current c) ∧
      (s.miSwitch c free).pc = s.pc ∧ (s.miSwitch c free).sched.totalCores = s.sched.totalCores := by
  rcases h.miSwitch_eq hc free with ⟨t, _, sched, _, hcores, _, _, he⟩ | ⟨_, he⟩ | ⟨hidle, _⟩
  · rw [he]
    exact ⟨by simp [Threads.resume], rfl, hcores⟩
  · rw [he]
    exact ⟨by simp [Threads.resume], rfl, rfl⟩
  · rw [hidle, h.idle_tid] at htid
    exact absurd rfl htid

theorem Sound.yield {c : ℕ}
    (hc : c < s.sched.totalCores) (hprev : s.prevThread c = none) {q : ω}
    (hpc : s.pc (s.current c) = .added q) (free : ℕ → Bool) :
    ∃ Q', ((s.setPc (s.current c) (.again q)).miSwitch c free).Sound Q' ∧ (s.Keeps c → s.Placed Q →
        ((s.setPc (s.current c) (.again q)).miSwitch c free).Placed Q') := by
  have htid := (h.inside (s.current c) (by simp [hpc])).1
  obtain ⟨hprev', hpc', hcores⟩ := h.miSwitch_prev hc htid free
  obtain ⟨Q', _, h', hp'⟩ := h.miSwitch hc hprev free
  rw [setPc_miSwitch]
  refine ⟨Q', h'.setAgain q (by simp [hpc', hpc]) fun d hd hcur => ?_, fun hk hp => ?_⟩
  · obtain rfl := h'.alone d hd c (hcores ▸ hc) _ (.inl hcur) (.inr hprev')
    exact h'.switched d (hcur ▸ hprev')
  · exact ⟨(hp' hk hp).placed, (hp' hk hp).leaving⟩

theorem Sound.create (t : τ) :
    { s with alive := update s.alive t true }.Sound Q := by
  have hgrow : ∀ u, s.alive u = true → update s.alive t true u = true := by
    intro u hu
    by_cases hut : u = t
    · simp [hut]
    · simpa [hut] using hu
  exact { h with
    inside := fun u hu => ⟨(h.inside u hu).1, hgrow u (h.inside u hu).2⟩
    queued := fun u hu => ⟨(h.queued u hu).1, hgrow u (h.queued u hu).2⟩
    executing := fun c hc u hu htidu => hgrow u (h.executing c hc u hu htidu) }

omit [DecidableEq τ] in
theorem Sound.nowhere {t : τ}
    (hdead : s.alive t = false) (htid : s.sched.tid t ≠ 0) :
    t ∉ Q ∧ s.pc t = .out ∧ ∀ c < s.sched.totalCores, ¬ s.Executing c t := by
  refine ⟨fun ht => ?_, ?_, fun c hc he => ?_⟩
  · exact absurd (h.queued t ht).2 (by simp [hdead])
  · by_contra hpc
    exact absurd (h.inside t hpc).2 (by simp [hdead])
  · exact absurd (h.executing c hc t he htid) (by simp [hdead])

theorem Sound.spawn {me : ℕ}
    (hme : me < s.sched.totalCores) {t : τ} (hdead : s.alive t = false) (htid : s.sched.tid t ≠ 0) :
    s.Carries Q { s with
      sched := s.sched.enqueue me t
      alive := update s.alive t true } (insert t Q) := by
  obtain ⟨hnew, hpc, hexec⟩ := h.nowhere hdead htid
  refine ⟨(h.create t).enqueue hme htid (by simp) hnew hexec (h.outside t hpc) (by simp [hpc]),
    fun hp => ?_⟩
  refine Placed.enqueue (s := { s with alive := update s.alive t true })
    ⟨fun u hu htidu => ?_, hp.leaving⟩ me htid hexec
  by_cases hut : u = t
  · exact .inl (hut ▸ Set.mem_insert t Q)
  · exact (hp.placed u (by simpa [hut] using hu) htidu).imp_left fun hq => Set.mem_insert_of_mem t hq

end

section steps
variable [DecidableEq ω] {s : Threads τ ω} {Q : Set τ} {c : ℕ}

omit [DecidableEq τ] [DecidableEq ω] in
theorem ready_iff : s.ready c = true ↔ c < s.sched.totalCores ∧ s.prevThread c = none := by
  simp [ready]

section
variable (h : s.Sound Q)
include h

section
variable (hc : c < s.sched.totalCores)
include hc

theorem Sound.add {q : ω}
    (hpc : s.pc (s.current c) = .set q) :
    s.Carries Q ((s.addWaitQueue q (s.current c)).setPc (s.current c) (.added q)) Q := by
  obtain ⟨_, hstate, hnode⟩ := h.setting _ q hpc
  have htid := (h.inside (s.current c) (by simp [hpc])).1
  have heq : (s.addWaitQueue q (s.current c)).setPc (s.current c) (.added q) =
      s.become (s.current c) (s.sched.state (s.current c)) (.added q) (some q)
        (update s.waitq q (s.waitq q ++ [s.current c])) := by
    simp [addWaitQueue, hnode, setPc, Threads.become]
  rw [heq]
  refine ⟨h.become hc rfl htid ?_ ?_ ⟨fun _ => hstate, by simp, by simp, by simp, fun hz => ?_⟩,
    fun hp => hp.become h hc rfl _ _ _ _⟩
  · exact mem_update_queue h.node (by simp [hnode]) (by simp) (by simp) fun u hut => by simp [hut]
  · apply nodup_update_queue h.nodup
    refine (h.nodup q).append (List.nodup_singleton _) (List.disjoint_singleton.mpr ?_)
    rw [h.node, hnode]
    exact (Option.some_ne_none q).symm
  · have hout := (h.exited _ hz).1
    rw [hpc] at hout
    cases hout

section
variable (htid : s.sched.tid (s.current c) ≠ 0)
include htid

omit [DecidableEq ω] in
theorem Sound.becomeSame
    {st : ThreadState} {p : WaitPc ω} {n : Option ω}
    (hnode : s.waitNode (s.current c) = n) (hfits : Fits st p n) :
    s.Carries Q (s.become (s.current c) st p n s.waitq) Q := by
  refine ⟨h.become hc rfl htid ?_ h.nodup hfits, fun hp => hp.become h hc rfl _ _ _ _⟩
  intro u q
  rw [← hnode, update_eq_self]
  exact h.node u q

omit [DecidableEq ω] in
theorem Sound.wait
    (hnode : s.waitNode (s.current c) = none) (q : ω) :
    s.Carries Q ((s.setState (s.current c) .waiting).setPc (s.current c) (.set q)) Q := by
  have heq : (s.setState (s.current c) .waiting).setPc (s.current c) (.set q) =
      s.become (s.current c) .waiting (.set q) none s.waitq := by
    rw [← hnode]
    simp [Threads.setState, setPc, Threads.become]
  rw [heq]
  exact h.becomeSame hc htid hnode ⟨by simp, by simp, by simp, by simp, by simp⟩

omit [DecidableEq ω] in
theorem Sound.exit
    (hpc : s.pc (s.current c) = .out) :
    s.Carries Q (s.setState (s.current c) .zombie) Q := by
  have hnode := h.outside _ hpc
  have heq : s.setState (s.current c) .zombie =
      s.become (s.current c) .zombie .out none s.waitq := by
    rw [← hnode, ← hpc]
    simp [Threads.setState, Threads.become]
  rw [heq]
  exact h.becomeSame hc htid hnode ⟨by simp, by simp, by simp, by simp, by simp⟩

end

omit [DecidableEq ω] in
theorem Sound.check {q : ω}
    (hpc : s.pc (s.current c) = .added q) :
    s.Carries Q ((s.setState (s.current c) .ready).setPc (s.current c) (.done q)) Q := by
  have htid := (h.inside (s.current c) (by simp [hpc])).1
  have heq : (s.setState (s.current c) .ready).setPc (s.current c) (.done q) =
      s.become (s.current c) .ready (.done q) (s.waitNode (s.current c)) s.waitq := by
    simp [Threads.setState, setPc, Threads.become]
  rw [heq]
  exact h.becomeSame hc htid rfl ⟨by simp, by simp, by simp, by simp, by simp⟩

theorem Sound.leave
    (hpc : s.pc (s.current c) ≠ .out) :
    s.Carries Q ((s.removeWaitQueue (s.current c)).setPc (s.current c) .out) Q := by
  have htid := (h.inside (s.current c) hpc).1
  have hfits : Fits (s.sched.state (s.current c)) (.out : WaitPc ω) none :=
    ⟨by simp, by simp, by simp, by simp, by simp⟩
  cases hnode : s.waitNode (s.current c) with
  | none =>
    have heq : (s.removeWaitQueue (s.current c)).setPc (s.current c) .out =
        s.become (s.current c) (s.sched.state (s.current c)) .out none s.waitq := by
      simp [removeWaitQueue, hnode, setPc, Threads.become]
    rw [heq]
    exact h.becomeSame hc htid hnode hfits
  | some q =>
    have heq : (s.removeWaitQueue (s.current c)).setPc (s.current c) .out =
        s.become (s.current c) (s.sched.state (s.current c)) .out none
          (update s.waitq q ((s.waitq q).erase (s.current c))) := by
      simp [removeWaitQueue, hnode, setPc, Threads.become]
    rw [heq]
    refine ⟨h.become hc rfl htid ?_ ?_ hfits, fun hp => hp.become h hc rfl _ _ _ _⟩
    · exact mem_update_queue h.node (by simp [hnode]) (by simp) (by simp [(h.nodup q).not_mem_erase])
        fun u hut => List.mem_erase_of_ne hut
    · exact nodup_update_queue h.nodup ((h.nodup q).erase _)

end

omit [DecidableEq τ] [DecidableEq ω] h in
theorem Carries.kept {e : Event τ ω} {s' : Threads τ ω} {Q' : Set τ} (h : s.Carries Q s' Q') :
    ∃ Q', s'.Sound Q' ∧ (s.Kept e → s.Placed Q → s'.Placed Q') :=
  ⟨Q', h.sound, fun _ => h.placed⟩

theorem Sound.step {e : Event τ ω} {s' : Threads τ ω} (hok : s.Settled e)
    (hstep : s.step e = some s') :
    ∃ Q', s'.Sound Q' ∧ (s.Kept e → s.Placed Q → s'.Placed Q') := by
  cases e with
  | spawn me t =>
    simp only [Threads.step] at hstep
    split_ifs at hstep with hg
    cases hstep
    exact (h.spawn hg.1 hg.2.1 hg.2.2).kept
  | exit c =>
    simp only [Threads.step] at hstep
    split_ifs at hstep with hg
    split at hstep
    · cases hstep
      exact (h.exit (ready_iff.mp hg.1).1 hg.2 ‹_›).kept
    · cases hstep
  | wait c q =>
    simp only [Threads.step] at hstep
    split_ifs at hstep with hg
    have hc := (ready_iff.mp hg.1).1
    split at hstep
    · cases hstep
      exact (h.wait hc hg.2.1 (h.outside _ ‹_›) q).kept
    · cases hstep
      exact (h.wait hc hg.2.1 (h.returned c hc _ ‹_›) q).kept
    · cases hstep
  | add c =>
    simp only [Threads.step] at hstep
    split_ifs at hstep with hg
    split at hstep
    · cases hstep
      exact (h.add (ready_iff.mp hg).1 ‹_›).kept
    · cases hstep
  | check c =>
    simp only [Threads.step] at hstep
    split_ifs at hstep with hg
    split at hstep
    · cases hstep
      exact (h.check (ready_iff.mp hg).1 ‹_›).kept
    · cases hstep
  | yield c free =>
    simp only [Threads.step] at hstep
    split_ifs at hstep with hg
    obtain ⟨hc, hprev⟩ := ready_iff.mp hg
    split at hstep
    · cases hstep
      exact h.yield hc hprev ‹_› free
    · cases hstep
  | leave c =>
    simp only [Threads.step] at hstep
    split_ifs at hstep with hg
    have hc := (ready_iff.mp hg).1
    split at hstep
    · rename_i hpc
      cases hstep
      exact (h.leave hc (by simp [hpc])).kept
    · rename_i hpc
      cases hstep
      exact (h.leave hc (by simp [hpc])).kept
    · cases hstep
  | preempt c free =>
    simp only [Threads.step] at hstep
    split_ifs at hstep with hg
    cases hstep
    obtain ⟨hc, hprev⟩ := ready_iff.mp hg
    obtain ⟨Q', _, h'⟩ := h.miSwitch hc hprev free
    exact ⟨Q', h'⟩
  | hook c =>
    simp only [Threads.step] at hstep
    split_ifs at hstep with hc
    cases hstep
    obtain ⟨Q', _, h'⟩ := h.postSwitchHook hc
    exact h'.kept
  | wakeUp me q =>
    simp only [Threads.step] at hstep
    split_ifs at hstep with hme
    cases hstep
    obtain ⟨Q', h'⟩ := h.wakeUp hme hok
    exact h'.kept
  | wakeUpAll me q =>
    simp only [Threads.step] at hstep
    split_ifs at hstep with hme
    cases hstep
    obtain ⟨Q', h'⟩ := h.wakeUpMany hme hok (s.waitq q).length
    exact h'.kept

end

/-- While wake-ups find threads that execute nowhere, no thread is on a run queue while it executes,
and no two CPUs run the same thread. -/
theorem reaches_off_queue {s₀ : Threads τ ω} (h₀ : s₀.Booted) (h : Run.Reaches Next Settled s₀ s) :
    (∀ c < s.sched.totalCores, ∀ t, s.Executing c t → ¬ s.sched.OnQueue t) ∧
      ∀ c < s.sched.totalCores, ∀ d < s.sched.totalCores, s.current c = s.current d → c = d := by
  obtain ⟨Q, hs⟩ : ∃ Q, s.Sound Q := by
    refine h.invariant (I := fun s => ∃ Q, s.Sound Q) ?_ ⟨∅, h₀.sound⟩
    rintro s e s' ⟨Q, hs⟩ hok hstep
    obtain ⟨Q', hs', _⟩ := hs.step hok hstep
    exact ⟨Q', hs'⟩
  refine ⟨fun c hc t ht hq => ?_, fun c hc d hd heq => ?_⟩
  · exact hs.off c hc t ht ((hs.holds.onQueue_iff t).mp hq)
  · exact hs.alone c hc d hd _ (.inl rfl) (.inl heq.symm)

/-- While wake-ups find threads that execute nowhere and switches leave only threads running, linked
on a wait queue or exited, every live thread that no CPU runs or is switching away from is on a run
queue or linked on a wait queue. -/
theorem reaches_placed {s₀ : Threads τ ω} (h₀ : s₀.Booted)
    (h : Run.Reaches Next (fun s e => s.Settled e ∧ s.Kept e) s₀ s) (t : τ)
    (halive : s.alive t = true) (htid : s.sched.tid t ≠ 0)
    (hnot : ∀ c < s.sched.totalCores, ¬ s.Executing c t) :
    s.sched.OnQueue t ∨ ∃ q, t ∈ s.waitq q := by
  obtain ⟨Q, hs, hp⟩ : ∃ Q, s.Sound Q ∧ s.Placed Q := by
    refine h.invariant (I := fun s => ∃ Q, s.Sound Q ∧ s.Placed Q) ?_ ⟨∅, h₀.sound, ?_, ?_⟩
    · rintro s e s' ⟨Q, hs, hp⟩ hok hstep
      obtain ⟨Q', hs', hp'⟩ := hs.step hok.1 hstep
      exact ⟨Q', hs', hp' hok.2 hp⟩
    · intro t ht
      rw [h₀.alive] at ht
      cases ht
    · intro c _ t ht
      rw [h₀.prevThread] at ht
      cases ht
  rcases hp.placed t halive htid with hq | hn | ⟨c, hc, he⟩
  · exact .inl ((hs.holds.onQueue_iff t).mpr hq)
  · obtain ⟨q, hq⟩ := Option.ne_none_iff_exists'.mp hn
    exact .inr ⟨q, (hs.node t q).mpr hq⟩
  · exact absurd he (hnot c hc)

end steps

instance (s : Threads τ ω) (c : ℕ) (t : τ) : Decidable (s.Executing c t) := by
  unfold Executing
  infer_instance

instance [DecidableEq ω] (s : Threads τ ω) (e : Event τ ω) : Decidable (s.Settled e) := by
  cases e <;> unfold Settled <;> infer_instance

instance [DecidableEq ω] (s : Threads τ ω) (e : Event τ ω) : Decidable (s.Kept e) := by
  cases e <;> unfold Kept <;> try unfold Keeps
  all_goals infer_instance

/-- Two CPUs on their idle threads 0 and 1; the other numbers are threads to come. -/
def twoCpus : Threads ℕ Unit where
  sched :=
    { tid := fun t => if t < 2 then 0 else 1
      state := fun _ => .embryo
      schedNext := fun _ => none
      ticks := fun _ => 0
      priority := fun _ => 0
      sliceLeft := fun _ => 0
      cpu := fun _ => 0
      queues := fun _ => ⟨none, none⟩
      threadCount := fun _ => 0
      sleepHead := none
      totalCores := 2 }
  current c := c % 2
  prevThread _ := none
  idle c := c % 2
  waitq _ := []
  waitNode _ := none
  pc _ := .out
  alive _ := false

theorem twoCpus_booted : twoCpus.Booted where
  empty := ⟨fun _ => rfl, fun _ => rfl, rfl⟩
  current _ := rfl
  prevThread _ := rfl
  idle_inj := by
    intro c hc d hd h
    have hcores : twoCpus.sched.totalCores = 2 := rfl
    have h' : c % 2 = d % 2 := h
    omega
  idle_tid c := if_pos (Nat.mod_lt c (by decide))
  waitq _ := rfl
  waitNode _ := rfl
  pc _ := rfl
  alive _ := rfl
  state _ := by simp [twoCpus]

/-- CPU 0 runs thread 2, on a wait queue but not yet yielded. -/
def waitingOnCpu : List (Event ℕ Unit) :=
  [.spawn 0 2, .preempt 0 fun _ => true, .hook 0, .wait 0 (), .add 0]

/-- A wake-up enqueues a thread that still executes, and the other CPU runs it too. -/
theorem wakeUp_enqueues_executing : twoCpus.Booted ∧ ∃ s s' : Threads ℕ Unit,
    (waitingOnCpu ++ [Event.wakeUp 1 ()]).foldlM step twoCpus = some s ∧ s.current 0 = 2 ∧
      s.sched.OnQueue 2 ∧ s.step (.preempt 1 fun _ => true) = some s' ∧
      s'.current 0 = 2 ∧ s'.current 1 = 2 := by
  refine ⟨twoCpus_booted, _, _, rfl, rfl, ?_, rfl, rfl, rfl⟩
  exact ⟨0, by decide, 0, by decide, 2, rfl, .refl⟩

theorem reaches_off_queue_woken : ∃ s : Threads ℕ Unit,
    (waitingOnCpu ++ [Event.yield 0 fun _ => true, .hook 0, .wakeUp 1 ()]).foldlM
      (fun (s : Threads ℕ Unit) e => if s.Settled e then s.step e else none) twoCpus = some s ∧
      s.sched.OnQueue 2 ∧ ∀ c < s.sched.totalCores, ∀ t, s.Executing c t → ¬ s.sched.OnQueue t := by
  have hrun : (waitingOnCpu ++ [Event.yield 0 fun _ => true, .hook 0, .wakeUp 1 ()]).foldlM
      (fun (s : Threads ℕ Unit) e => if s.Settled e then s.step e else none) twoCpus = some _ := rfl
  exact ⟨_, hrun, ⟨0, by decide, 0, by decide, 2, rfl, .refl⟩,
    (reaches_off_queue twoCpus_booted (Run.reaches_of_guarded hrun)).1⟩

theorem reaches_placed_waiting : ∃ s : Threads ℕ Unit,
    (waitingOnCpu ++ [Event.yield 0 fun _ => true, .hook 0]).foldlM
      (fun (s : Threads ℕ Unit) e => if s.Settled e ∧ s.Kept e then s.step e else none) twoCpus = some s ∧
      s.alive 2 = true ∧ (s.sched.OnQueue 2 ∨ ∃ q, 2 ∈ s.waitq q) := by
  have hrun : (waitingOnCpu ++ [Event.yield 0 fun _ => true, .hook 0]).foldlM
      (fun (s : Threads ℕ Unit) e => if s.Settled e ∧ s.Kept e then s.step e else none) twoCpus = some _ := rfl
  refine ⟨_, hrun, rfl, reaches_placed twoCpus_booted (Run.reaches_of_guarded hrun) 2 rfl (by decide)
    (by decide)⟩

/-- A timer interrupt between the store of `THREAD_WAITING` and `add_wait_queue` loses the
thread. -/
theorem preempt_drops_thread : twoCpus.Booted ∧ ∃ s : Threads ℕ Unit,
    [Event.spawn 0 2, .preempt 0 fun _ => true, .hook 0, .wait 0 (), .preempt 0 fun _ => true,
      .hook 0].foldlM step twoCpus = some s ∧ s.alive 2 = true ∧ s.sched.tid 2 ≠ 0 ∧
      (∀ c < s.sched.totalCores, ¬ s.Executing c 2) ∧ ¬ s.sched.OnQueue 2 ∧ ∀ q, 2 ∉ s.waitq q := by
  refine ⟨twoCpus_booted, _, rfl, rfl, by decide, ?_, ?_, fun _ => List.not_mem_nil⟩
  · decide
  · rintro ⟨c, hc, p, hp, u, hu, _⟩
    replace hc : c < 2 := hc
    replace hp : p < 4 := hp
    interval_cases c <;> interval_cases p <;> cases hu

end Threads
end Doppio
