import Doppio.Sched.MlfqRuns

/-! Waiting and waking: the wait queues of `include/kernel/wait.h`, the loops of
`wait_event_interruptible`, pipes and event descriptors, and `mi_switch` with
`thread_post_switch_hook` of `kernel/proc/sched.c`. One step is a section under a lock or a store to
`t_state`; a CPU in `mi_switch` does nothing else until its hook has run. -/
namespace Doppio
open Function Set Option List
open LinkedQueue

inductive WaitPc (ω : Type*) where
  | out
  /-- `t_state = THREAD_WAITING` has been stored -/
  | set (q : ω)
  /-- `add_wait_queue` is done -/
  | added (q : ω)
  /-- the condition was true; `t_state = THREAD_READY` has been stored -/
  | done (q : ω)
  /-- `thread_yield` has returned -/
  | again (q : ω)

/-- The scheduler's queues, what each CPU runs, and the wait queues `ω`. -/
structure Threads (τ ω : Type*) where
  sched : Mlfq τ
  current : ℕ → τ
  prevThread : ℕ → Option τ
  idle : ℕ → τ
  waitq : ω → List τ
  /-- the queue that `t_wait_node` is linked on -/
  waitNode : τ → Option ω
  pc : τ → WaitPc ω
  /-- created and not yet destroyed -/
  alive : τ → Bool

namespace Threads
variable {τ ω : Type*}

section
variable [DecidableEq τ] [DecidableEq ω]

variable (s : Threads τ ω)

def setState (t : τ) (st : ThreadState) : Threads τ ω :=
  { s with sched := { s.sched with state := update s.sched.state t st } }

def setPc (t : τ) (pc : WaitPc ω) : Threads τ ω :=
  { s with pc := update s.pc t pc }

def addWaitQueue (q : ω) (t : τ) : Threads τ ω :=
  match s.waitNode t with
  | some _ => s
  | none =>
    { s with
      waitq := update s.waitq q (s.waitq q ++ [t])
      waitNode := update s.waitNode t (some q) }

/-- `list_del` takes the node off whichever queue it is on. -/
def removeWaitQueue (t : τ) : Threads τ ω :=
  match s.waitNode t with
  | none => s
  | some q =>
    { s with
      waitq := update s.waitq q ((s.waitq q).erase t)
      waitNode := update s.waitNode t none }

def wakeUp (me : ℕ) (q : ω) : Threads τ ω :=
  match s.waitq q with
  | [] => s
  | t :: ts =>
    let s := { s with
      waitq := update s.waitq q ts
      waitNode := update s.waitNode t none }.setState t .ready
    { s with sched := s.sched.enqueue me t }

/-- `wake_up_all`: a turn for each thread on the queue. -/
def wakeUpAll (me : ℕ) (q : ω) : Threads τ ω :=
  (fun s => s.wakeUp me q)^[(s.waitq q).length] s

def resume (c : ℕ) (next : τ) : Threads τ ω :=
  { s.setState next .running with
    current := update s.current c next
    prevThread := update s.prevThread c (some (s.current c)) }

def miSwitch (c : ℕ) (free : ℕ → Bool) : Threads τ ω :=
  let prev := s.current c
  let r := s.sched.dequeue c free
  let s := { s with sched := r.2 }
  let next := r.1.getD (s.idle c)
  if prev = next ∧ s.sched.state prev ≠ .zombie then s.setState prev .running
  else s.resume c (if prev = next ∧ s.sched.state prev = .zombie then s.idle c else next)

def postSwitchHook (c : ℕ) : Threads τ ω :=
  match s.prevThread c with
  | none => s
  | some last =>
    let s :=
      if s.sched.state last = .running ∧ s.sched.tid last ≠ 0 then
        { s with sched := s.sched.enqueue c last }
      else if s.sched.state last = .zombie then
        { s with alive := update s.alive last false }
      else s
    { s with prevThread := update s.prevThread c none }

inductive Event (τ ω : Type*) where
  /-- a new thread is passed to `sched_enqueue` -/
  | spawn (me : ℕ) (t : τ)
  | exit (c : ℕ)
  /-- a wait loop begins, or goes round once more -/
  | wait (c : ℕ) (q : ω)
  | add (c : ℕ)
  /-- the condition of `wait_event`, or a pending signal -/
  | check (c : ℕ)
  /-- `thread_yield` of a wait loop -/
  | yield (c : ℕ) (free : ℕ → Bool)
  /-- the end of a wait loop -/
  | leave (c : ℕ)
  /-- a timer interrupt, or any other call of `mi_switch` -/
  | preempt (c : ℕ) (free : ℕ → Bool)
  | hook (c : ℕ)
  | wakeUp (me : ℕ) (q : ω)
  | wakeUpAll (me : ℕ) (q : ω)

/-- A CPU not in the middle of `mi_switch`. -/
def ready (c : ℕ) : Bool := c < s.sched.totalCores && (s.prevThread c).isNone

/-- The step of the thread on CPU `c`, if its place allows it. -/
def step : Event τ ω → Option (Threads τ ω)
  | .spawn me t =>
    if me < s.sched.totalCores ∧ s.alive t = false ∧ s.sched.tid t ≠ 0 then
      some { s with sched := s.sched.enqueue me t, alive := update s.alive t true }
    else none
  | .exit c =>
    if s.ready c ∧ s.sched.tid (s.current c) ≠ 0 then
      match s.pc (s.current c) with
      | .out => some (s.setState (s.current c) .zombie)
      | _ => none
    else none
  | .wait c q =>
    if s.ready c ∧ s.sched.tid (s.current c) ≠ 0 ∧ s.sched.state (s.current c) ≠ .zombie then
      match s.pc (s.current c) with
      | .out => some ((s.setState (s.current c) .waiting).setPc (s.current c) (.set q))
      | .again _ => some ((s.setState (s.current c) .waiting).setPc (s.current c) (.set q))
      | _ => none
    else none
  | .add c =>
    if s.ready c then
      match s.pc (s.current c) with
      | .set q => some ((s.addWaitQueue q (s.current c)).setPc (s.current c) (.added q))
      | _ => none
    else none
  | .check c =>
    if s.ready c then
      match s.pc (s.current c) with
      | .added q => some ((s.setState (s.current c) .ready).setPc (s.current c) (.done q))
      | _ => none
    else none
  | .yield c free =>
    if s.ready c then
      match s.pc (s.current c) with
      | .added q => some ((s.setPc (s.current c) (.again q)).miSwitch c free)
      | _ => none
    else none
  | .leave c =>
    if s.ready c then
      match s.pc (s.current c) with
      | .done _ => some ((s.removeWaitQueue (s.current c)).setPc (s.current c) .out)
      | .again _ => some ((s.removeWaitQueue (s.current c)).setPc (s.current c) .out)
      | _ => none
    else none
  | .preempt c free => if s.ready c then some (s.miSwitch c free) else none
  | .hook c => if c < s.sched.totalCores then some (s.postSwitchHook c) else none
  | .wakeUp me q => if me < s.sched.totalCores then some (s.wakeUp me q) else none
  | .wakeUpAll me q => if me < s.sched.totalCores then some (s.wakeUpAll me q) else none

def Next (e : Event τ ω) (s' : Threads τ ω) : Prop := s.step e = some s'

end

section
variable (s : Threads τ ω)

/-- CPU `c` runs the thread or is still switching away from it. -/
def Executing (c : ℕ) (t : τ) : Prop :=
  s.current c = t ∨ s.prevThread c = some t

/-- Every CPU runs its own idle thread and there is no other thread. -/
structure Booted : Prop where
  empty : s.sched.Empty
  current : ∀ c, s.current c = s.idle c
  prevThread : ∀ c, s.prevThread c = none
  idle_inj : ∀ c < s.sched.totalCores, ∀ d < s.sched.totalCores, s.idle c = s.idle d → c = d
  idle_tid : ∀ c, s.sched.tid (s.idle c) = 0
  waitq : ∀ q, s.waitq q = []
  waitNode : ∀ t, s.waitNode t = none
  pc : ∀ t, s.pc t = .out
  alive : ∀ t, s.alive t = false
  state : ∀ t, s.sched.state t ≠ .zombie

/-- No thread is on a run queue while it executes, with what keeps it so: a thread on a wait queue,
or about to join one, is neither on a run queue nor `THREAD_RUNNING`. The run queues hold `Q`. -/
structure Sound (Q : Set τ) : Prop where
  holds : Mlfq.System.Holds s.sched Q
  alone : ∀ c < s.sched.totalCores, ∀ d < s.sched.totalCores, ∀ t,
    s.Executing c t → s.Executing d t → c = d
  switched : ∀ c, s.prevThread c ≠ some (s.current c)
  off : ∀ c < s.sched.totalCores, ∀ t, s.Executing c t → t ∉ Q
  linked : ∀ t, s.waitNode t ≠ none → t ∉ Q ∧ s.sched.state t ≠ .running
  setting : ∀ t q, s.pc t = .set q → t ∉ Q ∧ s.sched.state t ≠ .running ∧ s.waitNode t = none
  returned : ∀ c < s.sched.totalCores, ∀ q, s.pc (s.current c) = .again q →
    s.waitNode (s.current c) = none
  outside : ∀ t, s.pc t = .out → s.waitNode t = none
  inside : ∀ t, s.pc t ≠ .out → s.sched.tid t ≠ 0 ∧ s.alive t = true
  exited : ∀ t, s.sched.state t = .zombie → s.pc t = .out ∧ s.sched.tid t ≠ 0
  node : ∀ t q, t ∈ s.waitq q ↔ s.waitNode t = some q
  nodup : ∀ q, (s.waitq q).Nodup
  idle_inj : ∀ c < s.sched.totalCores, ∀ d < s.sched.totalCores, s.idle c = s.idle d → c = d
  idle_tid : ∀ c, s.sched.tid (s.idle c) = 0
  idle_home : ∀ c < s.sched.totalCores, ∀ d < s.sched.totalCores, s.Executing d (s.idle c) → d = c
  queued : ∀ t ∈ Q, s.sched.tid t ≠ 0 ∧ s.alive t = true
  executing : ∀ c < s.sched.totalCores, ∀ t, s.Executing c t → s.sched.tid t ≠ 0 →
    s.alive t = true

end

variable {s : Threads τ ω} {Q : Set τ} {t : τ} {c : ℕ}

theorem Booted.sound (h : s.Booted) : s.Sound ∅ := by
  have hexec : ∀ c t, s.Executing c t → t = s.idle c := by
    rintro c t (ht | ht)
    · rw [← ht, h.current]
    · rw [h.prevThread] at ht
      cases ht
  refine ⟨Mlfq.System.holds_empty h.empty, ?_, ?_, fun _ _ _ _ => notMem_empty _, ?_, ?_, ?_, ?_,
    ?_, ?_, ?_, ?_, h.idle_inj, h.idle_tid, ?_, ?_, ?_⟩
  · intro c hc d hd t ht hu
    exact h.idle_inj c hc d hd ((hexec c t ht).symm.trans (hexec d t hu))
  · intro c
    rw [h.prevThread]
    exact (some_ne_none _).symm
  · intro t ht
    exact absurd (h.waitNode t) ht
  · intro t q ht
    rw [h.pc] at ht
    cases ht
  · intro c _ q hq
    exact h.waitNode _
  · intro t _
    exact h.waitNode t
  · intro t ht
    exact absurd (h.pc t) ht
  · intro t ht
    exact absurd ht (h.state t)
  · intro t q
    rw [h.waitq, h.waitNode]
    simp
  · intro q
    rw [h.waitq]
    exact nodup_nil
  · intro c hc d hd he
    exact h.idle_inj d hd c hc (hexec d _ he).symm
  · intro t ht
    exact absurd ht (notMem_empty t)
  · intro c _ t ht htid
    rw [hexec c t ht, h.idle_tid] at htid
    exact absurd rfl htid

/-- Every live thread is on a run queue or a wait queue or executes, and one that a CPU is switching
away from will not be dropped by the hook. -/
structure Placed (s : Threads τ ω) (Q : Set τ) : Prop where
  placed : ∀ t, s.alive t = true → s.sched.tid t ≠ 0 →
    t ∈ Q ∨ s.waitNode t ≠ none ∨ ∃ c < s.sched.totalCores, s.Executing c t
  leaving : ∀ c < s.sched.totalCores, ∀ t, s.prevThread c = some t → s.sched.tid t ≠ 0 →
    s.sched.state t = .running ∨ s.waitNode t ≠ none ∨ s.sched.state t = .zombie

/-- The step keeps the invariant, and the threads in their places. -/
structure Carries (s : Threads τ ω) (Q : Set τ) (s' : Threads τ ω) (Q' : Set τ) : Prop where
  sound : s'.Sound Q'
  placed : s.Placed Q → s'.Placed Q'

theorem Sound.dequeue (h : s.Sound Q) {sched : Mlfq τ}
    (hholds : Mlfq.System.Holds sched (Q \ {t})) (hcores : sched.totalCores = s.sched.totalCores)
    (htids : sched.tid = s.sched.tid) (hstate : sched.state = s.sched.state) :
    { s with sched := sched }.Sound (Q \ {t}) := by
  have hsub : ∀ u, u ∉ Q → u ∉ Q \ {t} := fun u hu hmem => hu hmem.1
  refine ⟨hholds, ?_, h.switched, ?_, ?_, ?_, ?_, h.outside, ?_, ?_, h.node, h.nodup, ?_, ?_, ?_, ?_,
    ?_⟩
  all_goals simp only [hcores, htids, hstate]
  · exact h.alone
  · exact fun c hc u hu => hsub u (h.off c hc u hu)
  · exact fun u hu => ⟨hsub u (h.linked u hu).1, (h.linked u hu).2⟩
  · intro u q hu
    obtain ⟨h1, h2⟩ := h.setting u q hu
    exact ⟨hsub u h1, h2⟩
  · exact h.returned
  · exact h.inside
  · exact h.exited
  · exact h.idle_inj
  · exact h.idle_tid
  · exact h.idle_home
  · exact fun u hu => h.queued u hu.1
  · exact h.executing

theorem Sound.idle_out (h : s.Sound Q) (c : ℕ) :
    s.pc (s.idle c) = .out := by
  by_contra hpc
  exact (h.inside _ hpc).1 (h.idle_tid c)

theorem Sound.switchDone (h : s.Sound Q) (c : ℕ) :
    { s with prevThread := update s.prevThread c none }.Sound Q := by
  have hwas : ∀ d u, ({ s with prevThread := update s.prevThread c none } :
      Threads τ ω).Executing d u → s.Executing d u := by
    rintro d u (hu | hu)
    · exact .inl hu
    · by_cases hdc : d = c
      · subst hdc
        simp at hu
      · exact .inr (by simpa [hdc] using hu)
  refine { h with
    alone := fun d hd e he u hdu heu => h.alone d hd e he u (hwas d u hdu) (hwas e u heu)
    switched := fun d => ?_
    off := fun d hd u hu => h.off d hd u (hwas d u hu)
    idle_home := fun d hd e he hu => h.idle_home d hd e he (hwas e _ hu)
    executing := fun d hd u hu => h.executing d hd u (hwas d u hu) }
  by_cases hdc : d = c
  · subst hdc
    simp
  · simpa [hdc] using h.switched d

theorem Sound.not_executing (h : s.Sound Q)
    (hc : c < s.sched.totalCores) (ht : s.prevThread c = some t) :
    ∀ d < s.sched.totalCores, ¬ ({ s with prevThread := update s.prevThread c none } :
      Threads τ ω).Executing d t := by
  rintro d hd (hu | hu)
  · obtain rfl := h.alone d hd c hc t (.inl hu) (.inr ht)
    exact h.switched d (hu ▸ ht)
  · by_cases hdc : d = c
    · subst hdc
      simp at hu
    · exact hdc (h.alone d hd c hc t (.inr (by simpa [hdc] using hu)) (.inr ht))

theorem Placed.switchDone {Q Q' : Set τ} (h : s.Placed Q)
    (ht : s.prevThread c = some t) (hQ : Q ⊆ Q')
    (hplace : s.sched.tid t ≠ 0 → t ∈ Q' ∨ s.waitNode t ≠ none) :
    { s with prevThread := update s.prevThread c none }.Placed Q' := by
  constructor
  · intro u halive htid
    by_cases hut : u = t
    · subst hut
      exact (hplace htid).imp_right .inl
    · rcases h.placed u halive htid with hq | hn | ⟨d, hd, hexec⟩
      · exact .inl (hQ hq)
      · exact .inr (.inl hn)
      · refine .inr (.inr ⟨d, hd, hexec.imp_right fun hu => ?_⟩)
        have hdc : d ≠ c := by
          rintro rfl
          exact hut (some.inj (hu.symm.trans ht))
        simpa [hdc] using hu
  · intro d hd u hu
    have hdc : d ≠ c := by
      rintro rfl
      simp at hu
    exact h.leaving d hd u (by simpa [hdc] using hu)

variable {waitq : ω → List τ} {q : ω}

theorem nodup_update_queue [DecidableEq ω] {l : List τ}
    (h : ∀ q, (waitq q).Nodup) (hl : l.Nodup) (q' : ω) : (update waitq q l q').Nodup :=
  (Function.forall_update_iff waitq fun _ l => l.Nodup).mpr ⟨hl, fun q' _ => h q'⟩ q'

variable [DecidableEq τ]

/-- A thread with a new state, place and wait node, and the wait queues with it. -/
def become (s : Threads τ ω) (t : τ) (st : ThreadState) (p : WaitPc ω) (n : Option ω)
    (waitq : ω → List τ) : Threads τ ω :=
  { s with
    sched := { s.sched with state := update s.sched.state t st }
    pc := update s.pc t p
    waitNode := update s.waitNode t n
    waitq := waitq }

/-- What the thread's new state, place and wait node agree on. -/
structure Fits (st : ThreadState) (p : WaitPc ω) (n : Option ω) : Prop where
  linked : n ≠ none → st ≠ .running
  set : ∀ q, p = .set q → st ≠ .running ∧ n = none
  again : ∀ q, p = .again q → n = none
  out : p = .out → n = none
  zombie : st = .zombie → p = .out

theorem mem_update_queue [DecidableEq ω] {node : τ → Option ω}
    {l : List τ} {n : Option ω} (hmem : ∀ u q, u ∈ waitq q ↔ node u = some q)
    (hq : ∀ q' ∈ node t, q' = q) (hn : ∀ q' ∈ n, q' = q) (ht : t ∈ l ↔ n = some q)
    (hl : ∀ u ≠ t, u ∈ l ↔ u ∈ waitq q) (u : τ) (q' : ω) :
    u ∈ update waitq q l q' ↔ update node t n u = some q' := by
  by_cases hqq : q' = q
  · subst hqq
    rw [update_self]
    by_cases hut : u = t
    · rw [hut, update_self, ht]
    · rw [update_of_ne hut, hl u hut, hmem]
  · rw [update_of_ne hqq, hmem]
    by_cases hut : u = t
    · rw [hut, update_self]
      exact iff_of_false (fun h => hqq (hq q' h)) fun h => hqq (hn q' h)
    · rw [update_of_ne hut]

variable {me : ℕ}

section
variable (h : s.Sound Q)
include h

theorem Sound.unlink [DecidableEq ω] {ts : List τ} (hq : s.waitq q = t :: ts) :
    { s with
      waitq := update s.waitq q ts
      waitNode := update s.waitNode t none }.Sound Q := by
  have hkeep : ∀ u, update s.waitNode t none u ≠ none → s.waitNode u ≠ none := by
    intro u hu
    by_cases hut : u = t
    · subst hut
      simp at hu
    · rwa [update_of_ne hut] at hu
  have hnone : ∀ u, s.waitNode u = none → update s.waitNode t none u = none := by
    intro u hu
    by_cases hut : u = t
    · subst hut
      simp
    · rwa [update_of_ne hut]
  have hnodup := h.nodup q
  rw [hq, nodup_cons] at hnodup
  have hnode : s.waitNode t = some q := (h.node t q).mp (hq ▸ mem_cons_self)
  refine { h with
    linked := fun u hu => h.linked u (hkeep u hu)
    setting := fun u q' hu => ?_
    returned := fun c hc q' hq' => hnone _ (h.returned c hc q' hq')
    outside := fun u hu => hnone u (h.outside u hu)
    node := mem_update_queue h.node (by simp [hnode]) (by simp) (by simp [hnodup.1]) ?_
    nodup := nodup_update_queue h.nodup hnodup.2 }
  · obtain ⟨h1, h2, h3⟩ := h.setting u q' hu
    exact ⟨h1, h2, hnone u h3⟩
  · intro u hut
    simp [hq, hut]

theorem Sound.enqueue
    (hme : me < s.sched.totalCores) (htid : s.sched.tid t ≠ 0) (halive : s.alive t = true)
    (hnew : t ∉ Q) (hexec : ∀ c < s.sched.totalCores, ¬ s.Executing c t)
    (hnode : s.waitNode t = none) (hset : ∀ q, s.pc t ≠ .set q) :
    { s with sched := s.sched.enqueue me t }.Sound (insert t Q) := by
  obtain ⟨_, _, _, _, hcores, htids⟩ := Mlfq.enqueue_fields me htid
  have hstate := Mlfq.enqueue_state me htid
  have hother : ∀ u, u ≠ t → (s.sched.enqueue me t).state u = s.sched.state u := by
    intro u hu
    rw [hstate, update_of_ne hu]
  refine ⟨h.holds.enqueue hme htid hnew, ?_, h.switched, ?_, ?_, ?_, ?_, h.outside, ?_, ?_, h.node,
    h.nodup, ?_, ?_, ?_, ?_, ?_⟩
  all_goals simp only [hcores, htids]
  · exact h.alone
  · intro c hc u hu hmem
    rcases mem_insert_iff.mp hmem with rfl | hmem
    · exact hexec c hc hu
    · exact h.off c hc u hu hmem
  · intro u hu
    have hut : u ≠ t := fun heq => hu (heq ▸ hnode)
    rw [hother u hut, mem_insert_iff, not_or]
    exact ⟨⟨hut, (h.linked u hu).1⟩, (h.linked u hu).2⟩
  · intro u q hu
    have hut : u ≠ t := fun heq => hset q (heq ▸ hu)
    obtain ⟨h1, h2, h3⟩ := h.setting u q hu
    rw [hother u hut, mem_insert_iff, not_or]
    exact ⟨⟨hut, h1⟩, h2, h3⟩
  · exact h.returned
  · exact h.inside
  · intro u hu
    have hut : u ≠ t := by
      rintro rfl
      rw [hstate, update_self] at hu
      cases hu
    rw [hother u hut] at hu
    exact h.exited u hu
  · exact h.idle_inj
  · exact h.idle_tid
  · exact h.idle_home
  · intro u hu
    rcases mem_insert_iff.mp hu with rfl | hu
    · exact ⟨htid, halive⟩
    · exact h.queued u hu
  · exact h.executing

section
variable (hc : c < s.sched.totalCores)
include hc

theorem Sound.become
    (ht : s.current c = t) (htid : s.sched.tid t ≠ 0)
    {st : ThreadState} {p : WaitPc ω} {n : Option ω}
    (hwaitq : ∀ u q, u ∈ waitq q ↔ update s.waitNode t n u = some q)
    (hnodup : ∀ q, (waitq q).Nodup) (hfits : Fits st p n) : (s.become t st p n waitq).Sound Q := by
  have hoff : t ∉ Q := h.off c hc t (.inl ht)
  have halive : s.alive t = true := h.executing c hc t (.inl ht) htid
  have hself : (s.become t st p n waitq).sched.state t = st ∧
      (s.become t st p n waitq).pc t = p ∧ (s.become t st p n waitq).waitNode t = n := by
    simp [Threads.become]
  have hother : ∀ u, u ≠ t → (s.become t st p n waitq).sched.state u = s.sched.state u ∧
      (s.become t st p n waitq).pc u = s.pc u ∧
      (s.become t st p n waitq).waitNode u = s.waitNode u := by
    intro u hu
    simp [Threads.become, hu]
  obtain ⟨hst, hp, hn⟩ := hself
  refine ⟨h.holds.congr rfl rfl rfl rfl rfl, h.alone, h.switched, h.off, ?_, ?_, ?_, ?_, ?_, ?_, hwaitq,
    hnodup, h.idle_inj, h.idle_tid, h.idle_home, h.queued, h.executing⟩
  · intro u hu
    by_cases hut : u = t
    · subst hut
      rw [hn] at hu
      rw [hst]
      exact ⟨hoff, hfits.linked hu⟩
    · rw [(hother u hut).2.2] at hu
      rw [(hother u hut).1]
      exact h.linked u hu
  · intro u q hu
    by_cases hut : u = t
    · subst hut
      rw [hp] at hu
      rw [hst, hn]
      exact ⟨hoff, hfits.set q hu⟩
    · rw [(hother u hut).2.1] at hu
      rw [(hother u hut).1, (hother u hut).2.2]
      exact h.setting u q hu
  · intro d hd q hq
    show (s.become t st p n waitq).waitNode (s.current d) = none
    replace hq : (s.become t st p n waitq).pc (s.current d) = .again q := hq
    by_cases hut : s.current d = t
    · rw [hut, hp] at hq
      rw [hut, hn]
      exact hfits.again q hq
    · rw [(hother _ hut).2.1] at hq
      rw [(hother _ hut).2.2]
      exact h.returned d hd q hq
  · intro u hu
    by_cases hut : u = t
    · subst hut
      rw [hp] at hu
      rw [hn]
      exact hfits.out hu
    · rw [(hother u hut).2.1] at hu
      rw [(hother u hut).2.2]
      exact h.outside u hu
  · intro u hu
    by_cases hut : u = t
    · subst hut
      exact ⟨htid, halive⟩
    · rw [(hother u hut).2.1] at hu
      exact h.inside u hu
  · intro u hu
    by_cases hut : u = t
    · subst hut
      rw [hst] at hu
      rw [hp]
      exact ⟨hfits.zombie hu, htid⟩
    · rw [(hother u hut).1] at hu
      rw [(hother u hut).2.1]
      exact h.exited u hu

theorem Sound.resume
    (hnew : t ∉ Q) (hexec : ∀ d < s.sched.totalCores, ¬ s.Executing d t)
    (hnode : s.waitNode t = none) (hset : ∀ q, s.pc t ≠ .set q)
    (halive : s.sched.tid t ≠ 0 → s.alive t = true)
    (hhome : ∀ d < s.sched.totalCores, t = s.idle d → c = d) :
    (s.resume c t).Sound Q := by
  have hwas : ∀ d u, (update s.current c t d = u ∨
      update s.prevThread c (some (s.current c)) d = some u) →
      (d = c ∧ u = t) ∨ s.Executing d u := by
    intro d u hu
    by_cases hdc : d = c
    · subst hdc
      simp only [update_self, some.injEq] at hu
      exact hu.imp (fun he => ⟨rfl, he.symm⟩) .inl
    · simp only [update_of_ne hdc] at hu
      exact .inr hu
  have hother : ∀ u, u ≠ t → update s.sched.state t .running u = s.sched.state u :=
    fun u hu => update_of_ne hu _ _
  refine ⟨h.holds.congr rfl rfl rfl rfl rfl, ?_, ?_, ?_, ?_, ?_, ?_, h.outside, h.inside, ?_, h.node,
    h.nodup, h.idle_inj, h.idle_tid, ?_, h.queued, ?_⟩
  · intro d hd e he u hdu heu
    rcases hwas d u hdu with ⟨rfl, rfl⟩ | hdu' <;> rcases hwas e u heu with ⟨rfl, hu⟩ | heu'
    · rfl
    · exact absurd heu' (hexec e he)
    · exact absurd (hu ▸ hdu') (hexec d hd)
    · exact h.alone d hd e he u hdu' heu'
  · intro d
    by_cases hdc : d = c
    · subst hdc
      simp only [Threads.resume, update_self, ne_eq, some.injEq]
      exact fun he => hexec d hc (.inl he)
    · simpa only [Threads.resume, update_of_ne hdc] using h.switched d
  · intro d hd u hu
    rcases hwas d u hu with ⟨_, rfl⟩ | hu
    · exact hnew
    · exact h.off d hd u hu
  · intro u hu
    have hut : u ≠ t := fun heq => hu (heq ▸ hnode)
    show u ∉ Q ∧ update s.sched.state t .running u ≠ .running
    rw [hother u hut]
    exact h.linked u hu
  · intro u q hu
    have hut : u ≠ t := fun heq => hset q (heq ▸ hu)
    show u ∉ Q ∧ update s.sched.state t .running u ≠ .running ∧ _
    rw [hother u hut]
    exact h.setting u q hu
  · intro d hd q hq
    by_cases hdc : d = c
    · subst hdc
      simp only [Threads.resume, update_self]
      exact hnode
    · simp only [Threads.resume, update_of_ne hdc] at hq ⊢
      exact h.returned d hd q hq
  · intro u hu
    have hut : u ≠ t := by
      rintro rfl
      simp [Threads.resume, setState] at hu
    replace hu : update s.sched.state t .running u = .zombie := hu
    rw [hother u hut] at hu
    exact h.exited u hu
  · intro d hd e he heu
    rcases hwas e _ heu with ⟨rfl, hu⟩ | heu
    · exact hhome d hd hu.symm
    · exact h.idle_home d hd e he heu
  · intro d hd u hu htid
    rcases hwas d u hu with ⟨_, rfl⟩ | hu
    · exact halive htid
    · exact h.executing d hd u hu htid

/-- `mi_switch` goes on to a queued thread or the idle thread. -/
theorem Sound.miSwitch_eq (free : ℕ → Bool) :
    (∃ t ∈ Q, ∃ sched : Mlfq τ, { s with sched := sched }.Sound (Q \ {t}) ∧
      sched.totalCores = s.sched.totalCores ∧ sched.tid = s.sched.tid ∧
      sched.state = s.sched.state ∧ s.miSwitch c free = { s with sched := sched }.resume c t) ∨
    (s.current c ≠ s.idle c ∧ s.miSwitch c free = s.resume c (s.idle c)) ∨
    (s.current c = s.idle c ∧ s.miSwitch c free = s.setState (s.idle c) .running) := by
  have hstate := Mlfq.dequeue_state s.sched c free
  unfold miSwitch
  rcases h.holds.dequeue c free with ⟨t, htQ, hret, hholds, hcores, htids⟩ | hnone
  · refine .inl ⟨t, htQ, (s.sched.dequeue c free).2, h.dequeue hholds hcores htids hstate, hcores,
      htids, hstate, ?_⟩
    have hne : s.current c ≠ t := fun heq => h.off c hc t (.inl heq) htQ
    simp [hret, hne]
  · rw [hnone]
    by_cases hidle : s.current c = s.idle c
    · have hlive : s.sched.state (s.idle c) ≠ .zombie := by
        intro hz
        exact (h.exited _ hz).2 (h.idle_tid c)
      simp [hidle, hlive]
    · simp [hidle]

end

end

/-- The thread on CPU `c` may be switched away from: `THREAD_RUNNING`, on a wait queue, exited, or
idle. -/
def Keeps (s : Threads τ ω) (c : ℕ) : Prop :=
  s.sched.tid (s.current c) ≠ 0 → s.sched.state (s.current c) = .running ∨
    s.waitNode (s.current c) ≠ none ∨ s.sched.state (s.current c) = .zombie

theorem Sound.setState (h : s.Sound Q)
    (hnode : s.waitNode t = none) (hset : ∀ q, s.pc t ≠ .set q) (st : ThreadState)
    (hst : st ≠ .zombie) : (s.setState t st).Sound Q := by
  refine { h with
      holds := h.holds.congr rfl rfl rfl rfl rfl
      linked := ?_
      setting := ?_
      exited := ?_ }
  · intro u hu
    have hne : u ≠ t := fun heq => hu (heq ▸ hnode)
    simpa [Threads.setState, hne] using h.linked u hu
  · intro u q hu
    have hne : u ≠ t := fun heq => hset q (heq ▸ hu)
    simpa [Threads.setState, hne] using h.setting u q hu
  · intro u hu
    have hne : u ≠ t := by
      rintro rfl
      exact hst (by simpa [Threads.setState] using hu)
    have hu' : s.sched.state u = .zombie := by simpa [Threads.setState, hne] using hu
    exact h.exited u hu'

theorem Placed.become (hp : s.Placed Q) (h : s.Sound Q)
    (hc : c < s.sched.totalCores) (ht : s.current c = t) (st : ThreadState) (p : WaitPc ω)
    (n : Option ω) (waitq : ω → List τ) : (s.become t st p n waitq).Placed Q := by
  constructor
  · intro u halive htid
    by_cases hut : u = t
    · exact .inr (.inr ⟨c, hc, .inl (ht.trans hut.symm)⟩)
    · simpa [Threads.become, hut, Executing] using hp.placed u halive htid
  · intro d hd u hu htid
    have hut : u ≠ t := by
      rintro rfl
      obtain rfl := h.alone d hd c hc u (.inr hu) (.inl ht)
      exact h.switched d (ht ▸ hu)
    simpa [Threads.become, hut] using hp.leaving d hd u hu htid

theorem Placed.resume {Q Q' : Set τ} (h : s.Placed Q)
    (hc : c < s.sched.totalCores) (hprev : s.prevThread c = none) (hkeeps : s.Keeps c)
    (hne : s.current c ≠ t) (hQ : ∀ u ∈ Q, u ≠ t → u ∈ Q') : (s.resume c t).Placed Q' := by
  constructor
  · intro u halive htid
    by_cases hut : u = t
    · exact .inr (.inr ⟨c, hc, .inl (by simp [Threads.resume, hut])⟩)
    · rcases h.placed u halive htid with hq | hn | ⟨d, hd, hexec⟩
      · exact .inl (hQ u hq hut)
      · exact .inr (.inl hn)
      · refine .inr (.inr ⟨d, hd, ?_⟩)
        by_cases hdc : d = c
        · subst hdc
          rcases hexec with hcur | hpre
          · exact .inr (by simp [Threads.resume, hcur])
          · rw [hprev] at hpre
            cases hpre
        · exact hexec.imp (fun he => by simpa [Threads.resume, hdc] using he)
            (fun he => by simpa [Threads.resume, hdc] using he)
  · intro d hd u hu htid
    by_cases hut : u = t
    · subst hut
      exact .inl (by simp [Threads.resume, setState])
    · have hstate : (s.resume c t).sched.state u = s.sched.state u := by
        simp [Threads.resume, setState, hut]
      rw [hstate]
      by_cases hdc : d = c
      · subst hdc
        have hcur : s.current d = u := by simpa [Threads.resume] using hu
        subst hcur
        exact hkeeps htid
      · exact h.leaving d hd u (by simpa [Threads.resume, hdc] using hu) htid

theorem Sound.miSwitch (h : s.Sound Q)
    (hc : c < s.sched.totalCores) (hprev : s.prevThread c = none) (free : ℕ → Bool) :
    ∃ Q' ⊆ Q, (s.miSwitch c free).Sound Q' ∧
      (s.Keeps c → s.Placed Q → (s.miSwitch c free).Placed Q') := by
  rcases h.miSwitch_eq hc free with ⟨t, htQ, sched, hs, hcores, htids, hstate, he⟩ | ⟨hne, he⟩ | ⟨_, he⟩
  · have hnotexec : ∀ d < s.sched.totalCores, ¬ s.Executing d t := fun d hd hexec =>
      h.off d hd t hexec htQ
    have hnode : s.waitNode t = none := by
      by_contra hn
      exact (h.linked t hn).1 htQ
    have hset : ∀ q, s.pc t ≠ .set q := fun q hq => (h.setting t q hq).1 htQ
    rw [he]
    refine ⟨Q \ {t}, fun u hu => hu.1, hs.resume (hcores ▸ hc) (fun hmem => hmem.2 rfl) ?_ hnode
      hset (fun _ => (h.queued t htQ).2) ?_, fun hkeeps hplaced => ?_⟩
    · intro d hd
      exact hnotexec d (hcores ▸ hd)
    · rintro d _ rfl
      exact absurd (h.idle_tid d) (h.queued _ htQ).1
    · have hplaced' : ({ s with sched := sched } : Threads τ ω).Placed Q := by
        refine ⟨?_, ?_⟩ <;> simp only [hcores, htids, hstate]
        · exact hplaced.placed
        · exact hplaced.leaving
      refine hplaced'.resume (hcores ▸ hc) hprev ?_ (fun heq => hnotexec c hc (.inl heq))
        fun u hu hut => ⟨hu, hut⟩
      simpa only [Keeps, htids, hstate] using hkeeps
  · have hnotQ : s.idle c ∉ Q := fun hmem => (h.queued _ hmem).1 (h.idle_tid c)
    have hout := h.idle_out c
    rw [he]
    refine ⟨Q, subset_rfl, h.resume hc hnotQ ?_ (h.outside _ hout) (fun q hq => ?_) ?_ ?_,
      fun hkeeps hplaced => hplaced.resume hc hprev hkeeps hne fun u hu _ => hu⟩
    · intro d hd hexec
      obtain rfl := h.idle_home c hc d hd hexec
      rcases hexec with hcur | hpre
      · exact hne hcur
      · rw [hprev] at hpre
        cases hpre
    · rw [hout] at hq
      cases hq
    · exact fun htid => absurd (h.idle_tid c) htid
    · exact fun d hd heq => h.idle_inj c hc d hd heq
  · rw [he]
    have hout := h.idle_out c
    refine ⟨Q, subset_rfl, h.setState (h.outside _ hout) (fun q hq => ?_) .running (by decide),
      fun _ hplaced => ⟨hplaced.placed, ?_⟩⟩
    · rw [hout] at hq
      cases hq
    intro d hd u hu htid
    have hne : u ≠ s.idle c := by
      rintro rfl
      exact htid (h.idle_tid c)
    simpa [Threads.setState, hne] using hplaced.leaving d hd u hu htid

theorem Placed.enqueue (h : s.Placed Q) (me : ℕ)
    (htid : s.sched.tid t ≠ 0) (hexec : ∀ c < s.sched.totalCores, ¬ s.Executing c t) :
    { s with sched := s.sched.enqueue me t }.Placed Q := by
  obtain ⟨_, _, _, _, hcores, htids⟩ := Mlfq.enqueue_fields me htid
  constructor
  · simp only [hcores, htids]
    exact h.placed
  · simp only [hcores, htids]
    intro d hd u hu htid'
    have hut : u ≠ t := fun heq => hexec d hd (.inr (heq ▸ hu))
    rw [Mlfq.enqueue_state me htid, update_of_ne hut]
    exact h.leaving d hd u hu htid'

theorem Sound.wakeUp [DecidableEq ω] (h : s.Sound Q) (hme : me < s.sched.totalCores)
    (hsettled : ∀ t ∈ (s.waitq q).head?, ∀ c < s.sched.totalCores, ¬ s.Executing c t) :
    ∃ Q', s.Carries Q (s.wakeUp me q) Q' := by
  unfold Threads.wakeUp
  cases hq : s.waitq q with
  | nil => exact ⟨Q, h, id⟩
  | cons t ts =>
    have hmem : t ∈ s.waitq q := hq ▸ mem_cons_self
    have hnode : s.waitNode t = some q := (h.node t q).mp hmem
    have hpc : s.pc t ≠ .out := by
      intro hout
      rw [h.outside t hout] at hnode
      cases hnode
    have hset : ∀ q', s.pc t ≠ .set q' := by
      intro q' hset
      rw [(h.setting t q' hset).2.2] at hnode
      cases hnode
    obtain ⟨htid, halive⟩ := h.inside t hpc
    have hexec := hsettled t (by simp [hq])
    have hnew : t ∉ Q := (h.linked t (by simp [hnode])).1
    have hready := (h.unlink hq).setState (t := t) (by simp) hset .ready (by decide)
    refine ⟨insert t Q, hready.enqueue hme htid halive hnew hexec (by simp [Threads.setState]) hset,
      fun hplaced => Placed.enqueue ⟨?_, ?_⟩ me htid hexec⟩
    · intro u hu htidu
      by_cases hut : u = t
      · exact .inl (hut ▸ mem_insert t Q)
      · simpa [Threads.setState, hut, Executing] using hplaced.placed u hu htidu
    · intro d hd u hu htidu
      have hut : u ≠ t := fun heq => hexec d hd (.inr (heq ▸ hu))
      simpa [Threads.setState, hut] using hplaced.leaving d hd u hu htidu

theorem wakeUp_frame [DecidableEq ω] (s : Threads τ ω) (me : ℕ) (q : ω) :
    (s.wakeUp me q).sched.totalCores = s.sched.totalCores ∧ (s.wakeUp me q).current = s.current ∧
      (s.wakeUp me q).prevThread = s.prevThread ∧ (s.wakeUp me q).waitq q ⊆ s.waitq q := by
  unfold Threads.wakeUp
  cases hq : s.waitq q with
  | nil => exact ⟨rfl, rfl, rfl, by simp [hq]⟩
  | cons t ts =>
    refine ⟨Mlfq.enqueue_totalCores _ me t, rfl, rfl, ?_⟩
    simp only [setState, update_self]
    exact subset_cons_self t ts

theorem Sound.wakeUpMany [DecidableEq ω] (h : s.Sound Q) (hme : me < s.sched.totalCores)
    (hsettled : ∀ t ∈ s.waitq q, ∀ c < s.sched.totalCores, ¬ s.Executing c t) (n : ℕ) :
    ∃ Q', s.Carries Q ((fun s => s.wakeUp me q)^[n] s) Q' := by
  induction n generalizing s Q with
  | zero => exact ⟨Q, h, id⟩
  | succ n ih =>
    obtain ⟨hcores, hcurrent, hprev, hsub⟩ := s.wakeUp_frame me q
    obtain ⟨Q1, h1, hp1⟩ := h.wakeUp hme fun t ht => hsettled t (mem_of_head? ht)
    obtain ⟨Q2, h2, hp2⟩ := ih h1 (hcores ▸ hme) fun t ht c hc => by
      rw [Executing, hcurrent, hprev]
      exact hsettled t (hsub ht) c (hcores ▸ hc)
    exact ⟨Q2, h2, fun hp => hp2 (hp1 hp)⟩

theorem Sound.postSwitchHook (h : s.Sound Q) (hc : c < s.sched.totalCores) :
    ∃ Q', (∀ u ∈ Q', u ∈ Q ∨ s.prevThread c = some u ∧ s.sched.state u = .running) ∧
      s.Carries Q (s.postSwitchHook c) Q' := by
  unfold Threads.postSwitchHook
  cases ht : s.prevThread c with
  | none => exact ⟨Q, fun _ => .inl, h, id⟩
  | some t =>
    have hdone := h.switchDone c
    have hexec := h.not_executing hc ht
    have hnew : t ∉ Q := h.off c hc t (.inr ht)
    dsimp only
    split_ifs with hrun hzombie
    · have hnode : s.waitNode t = none := by
        by_contra hn
        exact (h.linked t hn).2 hrun.1
      have hset : ∀ q, s.pc t ≠ .set q := fun q hq => (h.setting t q hq).2.1 hrun.1
      have halive := h.executing c hc t (.inr ht) hrun.2
      refine ⟨insert t Q, ?_, hdone.enqueue hc hrun.2 halive hnew hexec hnode hset,
        fun hplaced => ?_⟩
      · rintro u (rfl | hu)
        · exact .inr ⟨rfl, hrun.1⟩
        · exact .inl hu
      exact Placed.enqueue (hplaced.switchDone ht (subset_insert t Q)
        fun _ => .inl (mem_insert t Q)) c hrun.2 hexec
    · obtain ⟨hout, htid⟩ := h.exited t hzombie
      refine ⟨Q, fun _ => .inl, { hdone with
        inside := fun u hu => ?_
        queued := fun u hu => ?_
        executing := fun d hd u hu htidu => ?_ }, fun hplaced => ⟨fun u hu htidu => ?_, ?_⟩⟩
      · have hut : u ≠ t := fun heq => hu (heq ▸ hout)
        simpa [hut] using h.inside u hu
      · have hut : u ≠ t := fun heq => hnew (heq ▸ hu)
        simpa [hut] using h.queued u hu
      · have hut : u ≠ t := fun heq => hexec d hd (heq ▸ hu)
        simpa [hut] using hdone.executing d hd u hu htidu
      · have hut : u ≠ t := by
          rintro rfl
          simp at hu
        have hu' : s.alive u = true := by simpa [hut] using hu
        rcases hplaced.placed u hu' htidu with hq | hn | ⟨d, hd, he⟩
        · exact .inl hq
        · exact .inr (.inl hn)
        · refine .inr (.inr ⟨d, hd, he.imp_right fun hpre => ?_⟩)
          have hdc : d ≠ c := by
            rintro rfl
            exact hut (some.inj (hpre.symm.trans ht))
          simpa [hdc] using hpre
      · intro d hd u hu
        have hdc : d ≠ c := by
          rintro rfl
          simp at hu
        exact hplaced.leaving d hd u (by simpa [hdc] using hu)
    · refine ⟨Q, fun _ => .inl, hdone, fun hplaced => hplaced.switchDone ht subset_rfl fun htid => .inr ?_⟩
      rcases hplaced.leaving c hc t ht htid with hr | hn | hz
      · exact absurd ⟨hr, htid⟩ hrun
      · exact hn
      · exact absurd hz hzombie

end Threads
end Doppio
