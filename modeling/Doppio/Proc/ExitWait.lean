import Doppio.Library.Run
import Mathlib.Data.List.Nodup

/-! `sys_exit` of children against `sys_wait4` (`kernel/sys/sys_proc.c`), with `mi_switch` and
`thread_post_switch_hook` of `kernel/proc/sched.c` and `proc_free` of `kernel/proc/proc.c`, one
store after another, of any thread: there are as many CPUs as threads. -/
namespace Doppio
open Function Option

inductive ExitPhase where
  /-- not yet forked -/
  | absent
  | live
  /-- off `p_threads` -/
  | unlinked
  /-- `t_state` is `THREAD_ZOMBIE` -/
  | dead
  /-- `p_exit_status` is set -/
  | status
  /-- `p_state` is `PROC_ZOMBIE` -/
  | zombie
  /-- has `p_lock` of the parent, at the head of the loop -/
  | waking
  /-- has taken the waiter off `p_wait_queue` -/
  | deleted (w : ℕ)
  /-- has set the `t_state` of the waiter -/
  | readied (w : ℕ)
  /-- has released `p_lock` of the parent -/
  | woken
  /-- in `mi_switch`, after `arch_switch_mm` -/
  | left
  /-- after `arch_context_switch`: the CPU runs another thread -/
  | switched
  /-- after `thread_post_switch_hook` -/
  | gone
  deriving DecidableEq

namespace ExitPhase

/-- The thread has the parent's `p_lock`. -/
@[grind] def locks : ExitPhase → Bool
  | waking | deleted _ | readied _ => true
  | _ => false

@[grind] def isZombie : ExitPhase → Bool
  | absent | live | unlinked | dead | status => false
  | _ => true

/-- The thread is past the wake-up of the waiters. -/
@[grind] def passed : ExitPhase → Bool
  | woken | left | switched | gone => true
  | _ => false

/-- The thread no longer runs on its CPU. -/
@[grind] def off : ExitPhase → Bool
  | switched | gone => true
  | _ => false

end ExitPhase

/-- Where a parent's thread is in `sys_wait4`; `pid` is `none` for any child. -/
inductive Wait4Pc where
  | out
  /-- has `p_lock`; the children `cs` are to be looked at, and `living` is `has_living_child` -/
  | scan (pid : Option ℕ) (nohang : Bool) (cs : List ℕ) (living : Bool)
  /-- has `p_lock` and found a zombie -/
  | found (c : ℕ)
  /-- has `p_lock` and has taken it off `p_children` -/
  | took (c : ℕ)
  /-- before `proc_put` -/
  | putting (c : ℕ)
  /-- in `proc_free`, after `mmu_destroy_map` -/
  | freeing (c : ℕ)
  /-- has `p_lock` and is `THREAD_WAITING` -/
  | tired (pid : Option ℕ)
  /-- has `p_lock` and is on `p_wait_queue` -/
  | queued (pid : Option ℕ)
  /-- the hook on its CPU has released `p_lock` -/
  | parked (pid : Option ℕ)
  /-- on a run queue again, at the head of the loop -/
  | again (pid : Option ℕ)
  deriving DecidableEq

namespace Wait4Pc

/-- The thread has `p_lock`. -/
@[grind] def locks : Wait4Pc → Bool
  | scan _ _ _ _ | found _ | took _ | tired _ | queued _ => true
  | _ => false

/-- The thread may be on `p_wait_queue`. -/
@[grind] def waits : Wait4Pc → Bool
  | queued _ | parked _ => true
  | _ => false

/-- The child taken off `p_children` and not yet freed. -/
@[grind] def takes : Wait4Pc → Option ℕ
  | took c | putting c | freeing c => some c
  | _ => none

/-- The `pid` that a thread waits for once it has decided to sleep. -/
@[grind] def sleeps : Wait4Pc → Option (Option ℕ)
  | tired pid | queued pid | parked pid => some pid
  | _ => none

end Wait4Pc

inductive LockOwner where
  | waiter (w : ℕ)
  | child (c : ℕ)
  deriving DecidableEq

/-- A process, its children and threads, and how often the parts of a child were freed. Names of
children are not used again. -/
structure ExitWait where
  children : List ℕ
  waitq : List ℕ
  lock : Option LockOwner
  pc : ℕ → Wait4Pc
  phase : ℕ → ExitPhase
  threadFrees : ℕ → ℕ
  mapFrees : ℕ → ℕ
  procFrees : ℕ → ℕ

namespace ExitWait

@[grind] def Matches (pid : Option ℕ) (c : ℕ) : Prop := pid = none ∨ pid = some c

instance (pid : Option ℕ) (c : ℕ) : Decidable (Matches pid c) :=
  inferInstanceAs (Decidable (_ ∨ _))

inductive Event where
  /-- the end of `sys_fork` or `sys_clone` -/
  | fork (c : ℕ)
  /-- the next store of the child's last thread, or of the hook -/
  | exit (c : ℕ)
  /-- the call of `sys_wait4` -/
  | wait4 (w : ℕ) (pid : Option ℕ) (nohang : Bool)
  /-- the next store of the thread, or of the hook -/
  | turn (w : ℕ)

section
variable (s : ExitWait)

def setPhase (c : ℕ) (p : ExitPhase) : ExitWait :=
  { s with phase := update s.phase c p }

def setPc (w : ℕ) (p : Wait4Pc) : ExitWait := { s with pc := update s.pc w p }

def acquire (o : LockOwner) : Option ExitWait :=
  if s.lock = none then some { s with lock := some o } else none

def release : ExitWait := { s with lock := none }

/-- One store of `sys_exit`, of its last `mi_switch`, or of the hook. -/
def exit (c : ℕ) : Option ExitWait :=
  match s.phase c with
  | .absent => none
  | .live => some (s.setPhase c .unlinked)
  | .unlinked => some (s.setPhase c .dead)
  | .dead => some (s.setPhase c .status)
  | .status => some (s.setPhase c .zombie)
  | .zombie => (s.acquire (.child c)).map (·.setPhase c .waking)
  | .waking =>
    match s.waitq with
    | [] => some (s.release.setPhase c .woken)
    | w :: ws => some ({ s with waitq := ws }.setPhase c (.deleted w))
  | .deleted w => some (s.setPhase c (.readied w))
  | .readied w =>
    -- `sched_enqueue`: the waiter may go on
    match s.pc w with
    | .parked pid => some ((s.setPc w (.again pid)).setPhase c .waking)
    | _ => none
  | .woken => some (s.setPhase c .left)
  | .left => some (s.setPhase c .switched)
  | .switched =>
    some ({ s with threadFrees := update s.threadFrees c (s.threadFrees c + 1) }.setPhase c
      .gone)
  | .gone => none

/-- `proc_free` up to `mmu_destroy_map`: frees the threads still on `p_threads`. -/
def procFree (c : ℕ) : ExitWait :=
  { s with
    threadFrees := update s.threadFrees c
      (s.threadFrees c + if s.phase c = .live then 1 else 0)
    mapFrees := update s.mapFrees c (s.mapFrees c + 1) }

/-- One store of `sys_wait4`, or of the hook after its switch. -/
def turn (w : ℕ) : Option ExitWait :=
  match s.pc w with
  | .out => none
  | .scan pid nohang (c :: cs) living =>
    if Matches pid c then
      if (s.phase c).isZombie then some (s.setPc w (.found c))
      else some (s.setPc w (.scan pid nohang cs true))
    else some (s.setPc w (.scan pid nohang cs living))
  | .scan pid nohang [] living =>
    if living ∧ ¬ nohang then some (s.setPc w (.tired pid)) else some (s.release.setPc w .out)
  | .found c => some ({ s with children := s.children.erase c }.setPc w (.took c))
  | .took c => some (s.release.setPc w (.putting c))
  | .putting c => some ((s.procFree c).setPc w (.freeing c))
  | .freeing c =>
    some ({ s with procFrees := update s.procFrees c (s.procFrees c + 1) }.setPc w .out)
  | .tired pid => some ({ s with waitq := s.waitq ++ [w] }.setPc w (.queued pid))
  | .queued pid => some (s.release.setPc w (.parked pid))
  | .parked _ => none
  | .again pid =>
    (s.acquire (.waiter w)).map fun s => s.setPc w (.scan pid false s.children false)

def step : Event → Option ExitWait
  | .fork c =>
    if s.lock = none ∧ s.phase c = .absent then
      some ({ s with children := s.children ++ [c] }.setPhase c .live)
    else none
  | .exit c => s.exit c
  | .wait4 w pid nohang =>
    if s.pc w = .out then
      (s.acquire (.waiter w)).map fun s => s.setPc w (.scan pid nohang s.children false)
    else none
  | .turn w => s.turn w

def boot : ExitWait := ⟨[], [], none, fun _ => .out, fun _ => .absent, fun _ => 0, fun _ => 0, fun _ => 0⟩

/-- The lock has one owner, and no thread on the wait queue waits for a child past its wake-up. -/
structure Sound : Prop where
  waiter : ∀ w, (s.pc w).locks ↔ s.lock = some (.waiter w)
  child : ∀ c, (s.phase c).locks ↔ s.lock = some (.child c)
  waitq : ∀ w ∈ s.waitq, (s.pc w).waits
  nodup : s.waitq.Nodup
  picked : ∀ c w, s.phase c = .deleted w ∨ s.phase c = .readied w → w ∉ s.waitq
  scanned : ∀ w pid nohang cs living, s.pc w = .scan pid nohang cs living →
    ∀ c ∈ s.children, Matches pid c → (s.phase c).passed → c ∈ cs
  asleep : ∀ w pid, (s.pc w).sleeps = some pid → w ∈ s.waitq ∨ (s.pc w).locks →
    ∀ c ∈ s.children, Matches pid c → (s.phase c).passed = false

end

variable {s s' : ExitWait} {e : Event} {c w : ℕ} {p : ExitPhase}

theorem isZombie_of_passed (hp : p.passed) : p.isZombie := by
  cases p with
  | woken | left | switched | gone => rfl
  | _ => cases hp

theorem acquire_eq {o : LockOwner} {f : ExitWait → ExitWait} (hs : (s.acquire o).map f = some s') :
    s.lock = none ∧ s' = f { s with lock := some o } := by
  obtain ⟨t, ht, rfl⟩ := map_eq_some_iff.mp hs
  obtain ⟨hfree, ht⟩ := ite_none_right_eq_some.mp ht
  rw [some.inj ht]
  exact ⟨hfree, rfl⟩

section
variable (h : s.Sound)
include h

theorem Sound.setPhase (hlock : p.locks = (s.phase c).locks)
    (hpassed : p.passed → (s.phase c).passed)
    (hpicked : ∀ w, p = .deleted w ∨ p = .readied w → w ∉ s.waitq) : (s.setPhase c p).Sound := by
  obtain ⟨hwaiter, hchild, hwaitq, hnodup, hpick, hscanned, hasleep⟩ := h
  constructor <;> simp only [ExitWait.setPhase] <;> grind

theorem Sound.exit (hs : s.exit c = some s') : s'.Sound := by
  have hpicked := h.picked c
  have hplain {p : ExitPhase} := h.setPhase (c := c) (p := p)
  obtain ⟨hwaiter, hchild, hwaitq, hnodup, -, hscanned, hasleep⟩ := h
  unfold ExitWait.exit at hs
  cases hp : s.phase c <;> simp only [hp] at hs hplain hpicked
  case zombie =>
    obtain ⟨hfree, rfl⟩ := acquire_eq hs
    constructor <;> simp only [ExitWait.setPhase, update_apply] <;> grind
  case waking =>
    -- the child is past the wake-up only once the queue is empty
    split at hs <;> obtain rfl := some.inj hs
    · constructor <;> simp only [ExitWait.setPhase, release, update_apply] <;> grind
    · constructor <;> simp only [ExitWait.setPhase, update_apply] <;> grind
  case readied v =>
    split at hs <;> cases hs
    constructor <;> simp only [ExitWait.setPhase, setPc, update_apply] <;> grind
  all_goals cases hs
  case deleted v => exact hplain rfl nofun fun w hw => hpicked w (by simpa using hw)
  case switched => exact { hplain (p := .gone) rfl (fun _ => rfl) nofun with }
  case woken => exact hplain rfl (fun _ => rfl) nofun
  case left => exact hplain rfl (fun _ => rfl) nofun
  all_goals exact hplain rfl nofun nofun

theorem Sound.setPc {p : Wait4Pc} (hlock : p.locks = (s.pc w).locks)
    (hwaits : (s.pc w).waits → p.waits)
    (hscan : ∀ pid nohang cs living, p = .scan pid nohang cs living →
      ∀ c ∈ s.children, Matches pid c → (s.phase c).passed → c ∈ cs)
    (hsleep : ∀ pid, p.sleeps = some pid → w ∈ s.waitq ∨ p.locks →
      ∀ c ∈ s.children, Matches pid c → (s.phase c).passed = false) : (s.setPc w p).Sound := by
  obtain ⟨hwaiter, hchild, hwaitq, hnodup, hpicked, hscanned, hasleep⟩ := h
  refine ⟨?_, hchild, ?_, hnodup, hpicked, ?_, ?_⟩
  all_goals simp only [ExitWait.setPc]; grind

theorem Sound.releasePc {p : Wait4Pc} (hlock : (s.pc w).locks) (hp : p.locks = false)
    (hwaits : (s.pc w).waits → p.waits)
    (hsleep : ∀ pid, p.sleeps = some pid → (s.pc w).sleeps = some pid) :
    (s.release.setPc w p).Sound := by
  obtain ⟨hwaiter, hchild, hwaitq, hnodup, -, -, hasleep⟩ := h
  constructor <;> simp only [ExitWait.setPc, release] <;> grind

theorem Sound.beginScan {pid : Option ℕ} {nohang : Bool} (hfree : s.lock = none)
    (hp : (s.pc w).waits = false) :
    ({ s with lock := some (.waiter w) }.setPc w (.scan pid nohang s.children false)).Sound := by
  obtain ⟨hwaiter, hchild, hwaitq, hnodup, -, -, hasleep⟩ := h
  constructor <;> simp only [ExitWait.setPc] <;> grind

theorem Sound.scan {pid : Option ℕ} {nohang living : Bool} {cs : List ℕ}
    (hp : s.pc w = .scan pid nohang cs living) (hs : s.turn w = some s') : s'.Sound := by
  have hscanned := h.scanned w pid nohang cs living hp
  have hlock : (s.pc w).locks := by rw [hp]; rfl
  have hnone {q : Wait4Pc} (hq : q.locks) (hscan : ∀ pid nohang cs living,
      q = .scan pid nohang cs living → ∀ c ∈ s.children, Matches pid c → (s.phase c).passed → c ∈ cs)
      (hsleep : ∀ pid, q.sleeps = some pid → ∀ c ∈ s.children, Matches pid c →
        (s.phase c).passed = false) : (s.setPc w q).Sound :=
    h.setPc (hq.trans hlock.symm) (by rw [hp]; nofun) hscan fun pid' hq' _ => hsleep pid' hq'
  unfold ExitWait.turn at hs
  simp only [hp] at hs
  cases cs with
  | nil =>
    dsimp only at hs
    split_ifs at hs <;> obtain rfl := some.inj hs
    · refine hnone (q := .tired pid) rfl nofun ?_
      grind
    · exact h.releasePc hlock rfl (by rw [hp]; nofun) nofun
  | cons c cs =>
    -- a child that is passed over is not a zombie, and cannot pass its wake-up without the lock
    have hzombie := @isZombie_of_passed (s.phase c)
    dsimp only at hs
    split_ifs at hs <;> obtain rfl := some.inj hs
    · exact hnone (q := .found c) rfl nofun nofun
    · refine hnone (q := .scan pid nohang cs true) rfl ?_ nofun
      grind
    · refine hnone (q := .scan pid nohang cs living) rfl ?_ nofun
      grind

theorem Sound.turn (hs : s.turn w = some s') : s'.Sound := by
  have hwaitq := h.waitq w
  have hasleep := h.asleep w
  have hturn := hs
  unfold ExitWait.turn at hs
  cases hp : s.pc w <;> simp only [hp] at hs hwaitq hasleep
  case scan pid nohang cs living => exact h.scan hp hturn
  case again pid =>
    obtain ⟨hfree, rfl⟩ := acquire_eq hs
    exact h.beginScan hfree (by rw [hp]; rfl)
  all_goals cases hs
  case found c =>
    have herase : { s with children := s.children.erase c }.Sound :=
      { h with
        scanned := fun w pid nohang cs living hw d hd =>
          h.scanned w pid nohang cs living hw d (List.mem_of_mem_erase hd)
        asleep := fun w pid hw hin d hd => h.asleep w pid hw hin d (List.mem_of_mem_erase hd) }
    exact herase.setPc (by simp [hp, Wait4Pc.locks]) (by simp [hp, Wait4Pc.waits]) nofun nofun
  case took c =>
    exact h.releasePc (by rw [hp]; rfl) rfl (by rw [hp]; nofun) nofun
  case putting c =>
    exact { h.setPc (w := w) (p := .freeing c) (by rw [hp]; rfl) (by rw [hp]; nofun) nofun nofun with }
  case freeing c =>
    exact { h.setPc (w := w) (p := .out) (by rw [hp]; rfl) (by rw [hp]; nofun) nofun nofun with }
  case tired pid =>
    obtain ⟨hwaiter, hchild, hwaitq', hnodup, -, -, hasleep'⟩ := h
    constructor <;> simp only [ExitWait.setPc] <;> grind
  case queued pid =>
    exact h.releasePc (by rw [hp]; rfl) rfl (by rw [hp]; exact fun _ => rfl)
      (by rw [hp]; exact fun _ hq => hq)

theorem Sound.step (hs : s.step e = some s') : s'.Sound := by
  cases e with
  | fork c =>
    obtain ⟨⟨hfree, -⟩, hs⟩ := ite_none_right_eq_some.mp hs
    obtain ⟨hwaiter, hchild, hwaitq, hnodup, -, -, hasleep⟩ := h
    cases hs
    constructor <;> simp only [ExitWait.setPhase] <;> grind
  | exit c => exact h.exit hs
  | wait4 w pid nohang =>
    obtain ⟨hout, hs⟩ := ite_none_right_eq_some.mp hs
    obtain ⟨hfree, rfl⟩ := acquire_eq hs
    exact h.beginScan hfree (by rw [hout]; rfl)
  | turn w => exact h.turn hs

end

theorem sound_boot : boot.Sound := by
  constructor <;> simp [boot, Wait4Pc.locks, ExitPhase.locks]

abbrev Reaches (ok : ExitWait → Event → Prop) : ExitWait → ExitWait → Prop :=
  Run.Reaches (fun s e s' => s.step e = some s') ok

/-- No thread stays on the wait queue for a child that is past its wake-up. -/
theorem reaches_awake (h : Reaches (fun _ _ => True) boot s) (hw : w ∈ s.waitq) :
    ∃ pid, (s.pc w).sleeps = some pid ∧
      ∀ c ∈ s.children, Matches pid c → (s.phase c).isZombie → (s.phase c).passed = false := by
  have hsound : s.Sound := h.invariant (fun _ _ _ hI _ hs => Sound.step hI hs) sound_boot
  have hwaits := hsound.waitq w hw
  obtain ⟨pid, hsleeps⟩ : ∃ pid, (s.pc w).sleeps = some pid := by
    cases hp : s.pc w <;> simp_all [Wait4Pc.waits, Wait4Pc.sleeps]
  exact ⟨pid, hsleeps, fun c hc hm _ => hsound.asleep w pid hsleeps (.inl hw) c hc hm⟩

theorem reaches_awake_zombie : ∃ s, Reaches (fun _ _ => True) boot s ∧ s.waitq = [7] ∧
    s.children = [1] ∧ (s.phase 1).isZombie ∧ (s.phase 1).passed = false := by
  obtain ⟨s, hs, hwaitq, hchildren, hpc, hphase⟩ : ∃ s ∈ [.fork 1, .exit 1, .exit 1, .exit 1,
      .wait4 7 none false, .turn 7, .turn 7, .turn 7, .exit 1, .turn 7].foldlM
      (fun (s : ExitWait) e => s.step e) boot, s.waitq = [7] ∧ s.children = [1] ∧
      s.pc 7 = .parked none ∧ s.phase 1 = .zombie := by
    decide +kernel
  have hreach := Run.reaches_of_foldlM hs
  obtain ⟨pid, hpid, hawake⟩ := reaches_awake (w := 7) hreach (by simp [hwaitq])
  obtain rfl : pid = none := by simpa [hpc, Wait4Pc.sleeps] using hpid.symm
  have hzombie : (s.phase 1).isZombie := by rw [hphase]; rfl
  exact ⟨s, hreach, hwaitq, hchildren, hzombie, hawake 1 (by simp [hchildren]) (.inl rfl) hzombie⟩

/-- `sys_wait4` looks at a zombie only when its last thread no longer runs. -/
def settled (s : ExitWait) : Event → Bool
  | .turn w =>
    match s.pc w with
    | .scan pid _ (c :: _) _ => ! (decide (Matches pid c) && (s.phase c).isZombie) || (s.phase c).off
    | _ => true
  | _ => true

/-- What `sys_wait4` frees has finished running, and is freed once. -/
structure Spared (s : ExitWait) : Prop where
  nodup : s.children.Nodup
  listed : ∀ c ∈ s.children, s.phase c ≠ .absent ∧ s.mapFrees c = 0 ∧ s.procFrees c = 0 ∧
    ∀ w, (s.pc w).takes ≠ some c
  scans : ∀ w pid nohang cs living, s.pc w = .scan pid nohang cs living → ∀ c ∈ cs, c ∈ s.children
  found : ∀ w c, s.pc w = .found c → c ∈ s.children ∧ (s.phase c).off
  taken : ∀ w c, (s.pc w).takes = some c → (s.phase c).off ∧ s.procFrees c = 0 ∧
    (s.mapFrees c = if s.pc w = .freeing c then 1 else 0) ∧ ∀ v, (s.pc v).takes = some c → v = w
  freed : ∀ c, s.mapFrees c ≠ 0 ∨ s.procFrees c ≠ 0 → (s.phase c).off
  thread : ∀ c, s.threadFrees c = if s.phase c = .gone then 1 else 0
  kept : ∀ c, s.phase c = .absent ∨ c ∈ s.children ∨ (∃ w, (s.pc w).takes = some c) ∨
    s.mapFrees c = 1 ∧ s.procFrees c = 1

theorem Spared.setPhase (h : s.Spared) (hfrom : s.phase c ≠ .absent)
    (hto : p ≠ .absent) (hoff : (s.phase c).off → p.off) (hgone : p = .gone ↔ s.phase c = .gone) :
    (s.setPhase c p).Spared := by
  obtain ⟨hnodup, hlisted, hscans, hfound, htaken, hfreed, hthread, hkept⟩ := h
  constructor <;> simp only [ExitWait.setPhase] <;> grind

theorem Spared.setPc {p : Wait4Pc} (h : s.Spared) (htakes : p.takes = (s.pc w).takes)
    (hfreeing : ∀ c, p = .freeing c ↔ s.pc w = .freeing c)
    (hscan : ∀ pid nohang cs living, p = .scan pid nohang cs living → ∀ c ∈ cs, c ∈ s.children)
    (hfind : ∀ c, p = .found c → c ∈ s.children ∧ (s.phase c).off) : (s.setPc w p).Spared := by
  obtain ⟨hnodup, hlisted, hscans, hfound, htaken, hfreed, hthread, hkept⟩ := h
  have htakes' : ∀ v, ((s.setPc w p).pc v).takes = (s.pc v).takes := by
    intro v
    simp only [ExitWait.setPc, update_apply]
    grind
  refine ⟨hnodup, ?_, ?_, ?_, ?_, hfreed, hthread, ?_⟩
  · simp only [htakes']
    exact hlisted
  · simp only [ExitWait.setPc]
    grind
  · simp only [ExitWait.setPc]
    grind
  · simp only [ExitWait.setPc]
    grind
  · simp only [htakes']
    exact hkept

theorem Spared.exit (h : s.Spared) (hs : s.exit c = some s') : s'.Spared := by
  have hplain {p : ExitPhase} := h.setPhase (c := c) (p := p)
  unfold ExitWait.exit at hs
  cases hp : s.phase c <;> simp only [hp] at hs hplain
  case zombie =>
    obtain ⟨-, rfl⟩ := acquire_eq hs
    exact { hplain (p := .waking) nofun nofun nofun (by simp) with }
  case waking =>
    split at hs <;> obtain rfl := some.inj hs
    · exact { hplain (p := .woken) nofun nofun nofun (by simp) with }
    · exact { hplain (p := .deleted _) nofun nofun nofun (by simp) with }
  case readied v =>
    split at hs
    case h_1 pid hv =>
      cases hs
      have hphase : (s.setPc v (.again pid)).phase c = .readied v := hp
      have hagain : (s.setPc v (.again pid)).Spared :=
        h.setPc (by rw [hv]; rfl) (by rw [hv]; simp) nofun nofun
      exact hagain.setPhase (by simp [hphase]) nofun (by simp [hphase, ExitPhase.off])
        (by simp [hphase])
    case h_2 => cases hs
  all_goals cases hs
  case switched =>
    obtain ⟨hnodup, hlisted, hscans, hfound, htaken, hfreed, hthread, hkept⟩ := h
    constructor <;> simp only [ExitWait.setPhase] <;> grind
  all_goals exact hplain nofun nofun nofun (by simp)

theorem Spared.scan {pid : Option ℕ} {nohang living : Bool} {cs : List ℕ} (h : s.Spared)
    (hp : s.pc w = .scan pid nohang cs living) (hok : s.settled (.turn w))
    (hs : s.turn w = some s') : s'.Spared := by
  have hcs := h.scans w pid nohang cs living hp
  have hnone {q : Wait4Pc} (hq : q.takes = none) (hfreeing : ∀ c, q ≠ .freeing c)
      (hscan : ∀ pid nohang cs living, q = .scan pid nohang cs living → ∀ c ∈ cs, c ∈ s.children)
      (hfind : ∀ c, q = .found c → c ∈ s.children ∧ (s.phase c).off) : (s.setPc w q).Spared :=
    h.setPc (by rw [hp, hq]; rfl) (by simp [hp, hfreeing]) hscan hfind
  unfold ExitWait.turn at hs
  simp only [hp, settled] at hs hok
  cases cs with
  | nil =>
    dsimp only at hs
    split_ifs at hs <;> obtain rfl := some.inj hs
    · exact hnone rfl nofun nofun nofun
    · exact { hnone (q := .out) rfl nofun nofun nofun with }
  | cons c cs =>
    dsimp only at hs hok
    split_ifs at hs <;> obtain rfl := some.inj hs
    · refine hnone (q := .found c) rfl nofun nofun ?_
      grind
    · refine hnone (q := .scan pid nohang cs true) rfl nofun ?_ nofun
      grind
    · refine hnone (q := .scan pid nohang cs living) rfl nofun ?_ nofun
      grind

theorem Spared.turn (hsound : s.Sound) (h : s.Spared) (hok : s.settled (.turn w))
    (hs : s.turn w = some s') : s'.Spared := by
  have hlock := hsound.waiter
  have hturn := hs
  have hplain {p : Wait4Pc} := h.setPc (w := w) (p := p)
  unfold ExitWait.turn at hs
  cases hp : s.pc w <;> simp only [hp] at hs hplain
  case scan pid nohang cs living => exact h.scan hp hok hturn
  case again pid =>
    obtain ⟨hfree, rfl⟩ := acquire_eq hs
    exact { hplain (p := .scan pid false s.children false) rfl (by simp) (by simp) nofun with }
  all_goals cases hs
  case took c => exact { hplain (p := .putting c) rfl (by simp) nofun nofun with }
  case tired pid => exact { hplain (p := .queued pid) rfl (by simp) nofun nofun with }
  case queued pid => exact { hplain (p := .parked pid) rfl (by simp) nofun nofun with }
  all_goals obtain ⟨hnodup, hlisted, hscans, hfound, htaken, hfreed, hthread, hkept⟩ := h
  all_goals constructor <;> simp only [ExitWait.setPc, procFree, update_apply] <;> grind

theorem Spared.step (hsound : s.Sound) (h : s.Spared) (hok : s.settled e) (hs : s.step e = some s') :
    s'.Spared := by
  cases e with
  | fork c =>
    obtain ⟨⟨hfree, habsent⟩, hs⟩ := ite_none_right_eq_some.mp hs
    obtain ⟨hnodup, hlisted, hscans, hfound, htaken, hfreed, hthread, hkept⟩ := h
    cases hs
    constructor <;> simp only [ExitWait.setPhase] <;> grind
  | exit c => exact h.exit hs
  | wait4 w pid nohang =>
    obtain ⟨hout, hs⟩ := ite_none_right_eq_some.mp hs
    obtain ⟨hfree, rfl⟩ := acquire_eq hs
    have hscan : (s.setPc w (.scan pid nohang s.children false)).Spared :=
      h.setPc (by rw [hout]; rfl) (by rw [hout]; simp) (by simp) nofun
    exact { hscan with }
  | turn w => exact h.turn hsound hok hs

theorem spared_boot : boot.Spared := by
  constructor <;> simp [boot, Wait4Pc.takes]

/-- While `sys_wait4` meets no zombie whose last thread still runs, the thread, the page tables and
the `struct proc` of a child are freed after its last thread has finished, and once: the thread by
the hook, the others by the `sys_wait4` that takes the child off `p_children`. -/
theorem reaches_freed_once (h : Reaches (fun s e => s.settled e) boot s) (c : ℕ) :
    (s.threadFrees c ≠ 0 ∨ s.mapFrees c ≠ 0 ∨ s.procFrees c ≠ 0 → (s.phase c).off) ∧
    (s.threadFrees c = if s.phase c = .gone then 1 else 0) ∧ s.mapFrees c ≤ 1 ∧ s.procFrees c ≤ 1 ∧
    (s.phase c = .absent ∨ c ∈ s.children ∨ (∃ w, (s.pc w).takes = some c) ∨
      s.mapFrees c = 1 ∧ s.procFrees c = 1) := by
  have hboth : s.Sound ∧ s.Spared := h.invariant (I := fun s => s.Sound ∧ s.Spared)
    (fun _ _ _ hI hok hs => ⟨hI.1.step hs, hI.2.step hI.1 hok hs⟩) ⟨sound_boot, spared_boot⟩
  obtain ⟨-, hlisted, -, -, htaken, hfreed, hthread, hkept⟩ := hboth.2
  have hcase := hkept c
  refine ⟨?_, hthread c, ?_, ?_, hcase⟩
  · grind
  · grind
  · grind

theorem reaches_freed_once_collected : ∃ s, Reaches (fun s e => s.settled e) boot s ∧
    s.phase 1 = .switched ∧ s.mapFrees 1 = 1 ∧ s.procFrees 1 = 1 ∧ s.threadFrees 1 = 0 := by
  obtain ⟨s, hs, hphase, hmap, hproc⟩ : ∃ s ∈ [.fork 1, .exit 1, .exit 1, .exit 1, .exit 1, .exit 1,
      .exit 1, .exit 1, .exit 1, .wait4 7 none false, .turn 7, .turn 7, .turn 7, .turn 7,
      .turn 7].foldlM (fun (s : ExitWait) e => if s.settled e then s.step e else none) boot,
      s.phase 1 = .switched ∧ s.mapFrees 1 = 1 ∧ s.procFrees 1 = 1 := by
    decide +kernel
  have hreach : Reaches (fun s e => s.settled e) boot s := Run.reaches_of_guarded hs
  have hthread := (reaches_freed_once hreach 1).2.1
  rw [hphase] at hthread
  exact ⟨s, hreach, hphase, hmap, hproc, hthread⟩

/-- A parent's thread on another CPU frees the child right after the store of `PROC_ZOMBIE`. -/
theorem wait4_frees_running : ∃ s, Reaches (fun _ _ => True) boot s ∧ s.mapFrees 1 = 1 ∧
    s.procFrees 1 = 1 ∧ (s.phase 1).off = false := by
  obtain ⟨s, hs, heq⟩ : ∃ s ∈ [.fork 1, .exit 1, .exit 1, .exit 1, .exit 1, .wait4 7 none false,
      .turn 7, .turn 7, .turn 7, .turn 7, .turn 7].foldlM (fun (s : ExitWait) e => s.step e) boot,
      s.mapFrees 1 = 1 ∧ s.procFrees 1 = 1 ∧ (s.phase 1).off = false := by
    decide +kernel
  exact ⟨s, Run.reaches_of_foldlM hs, heq⟩

end ExitWait
end Doppio
