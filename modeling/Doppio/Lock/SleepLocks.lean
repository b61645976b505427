import Doppio.Kernel.List
import Doppio.Sched.WaitQueue

/-! The sleeping locks of `kernel/lib/lock.c`, the semaphores of `kernel/sys/sys_sem.c`, and
`thread_signal_wakeup` of `kernel/proc/sched.c`. One step is one section under a lock: a thread that
goes to sleep holds the lock of its queue until it has been switched away from. -/
namespace Doppio
open Function

section signal
variable {τ : Type*} [DecidableEq τ]

namespace Mlfq

/-- The search of `thread_signal_wakeup` for the thread before `t`. -/
def sleepBefore (s : Mlfq τ) (t : τ) : ℕ → Option τ → Option (Option τ)
  | _, none => some none
  | 0, some _ => none
  | fuel + 1, some curr =>
    if s.schedNext curr = some t then some (some curr) else s.sleepBefore t fuel (s.schedNext curr)

/-- `thread_signal_wakeup` on CPU `me`, with a bound on the search. -/
def signalWakeup (s : Mlfq τ) (me : ℕ) (t : τ) (fuel : ℕ) : Option (Mlfq τ) :=
  match s.state t with
  | .sleep =>
    if s.sleepHead = some t then
      some ({ s with
        sleepHead := s.schedNext t
        schedNext := update s.schedNext t none }.enqueue me t)
    else
      match s.sleepBefore t fuel s.sleepHead with
      | some (some curr) =>
        let next := update s.schedNext curr (s.schedNext t)
        some ({ s with schedNext := update next t none }.enqueue me t)
      | some none => some s
      | none => none
  | .waiting => some (s.enqueue me t)
  | _ => some s

end Mlfq
end signal

structure Mutex (τ : Type*) where
  locked : Bool
  owner : Option τ

structure RwWord (τ : Type*) where
  count : BitVec 32
  owner : Option τ

/-- `struct sem_set_internal` without its wait queue and statistics. -/
structure SemSet where
  id : ℤ
  active : Bool
  nsems : ℕ
  val : ℕ → BitVec 16

structure SemBuf where
  semNum : BitVec 16
  semOp : BitVec 16
  semFlg : BitVec 16

def ipcNowait : BitVec 16 := 0o4000

/-- What the first loop of `sys_semop` finds. -/
inductive SemCheck where
  | tooBig
  | mustWait
  | canSucceed

namespace SemSet

def check (set : SemSet) : List SemBuf → SemCheck
  | [] => .canSucceed
  | op :: ops =>
    let currentVal := (set.val op.semNum.toNat).toNat
    if set.nsems ≤ op.semNum.toNat then .tooBig
    else if op.semOp.toInt < 0 ∧ currentVal + op.semOp.toInt < 0 then .mustWait
    else if op.semOp = 0 ∧ currentVal ≠ 0 then .mustWait
    else set.check ops

def apply (set : SemSet) (op : SemBuf) : SemSet :=
  { set with val := update set.val op.semNum.toNat (set.val op.semNum.toNat + op.semOp) }

end SemSet

/-- The wait queues of the mutexes `μ`, the semaphores `ρ` and the semaphore sets `ι`. -/
inductive SleepQueue (μ ρ ι : Type*) where
  | mutex (m : μ)
  | readers (r : ρ)
  | writers (r : ρ)
  | sem (i : ι)
  deriving DecidableEq

/-- The heads of the queues, and `t_wait_node` of each thread. -/
inductive SleepNode (τ μ ρ ι : Type*) where
  | head (q : SleepQueue μ ρ ι)
  | thread (t : τ)
  deriving DecidableEq

inductive SleepLoop (μ ρ ι : Type*) where
  | mutexLock (m : μ)
  | downRead (r : ρ)
  | downWrite (r : ρ)
  | semop (i : ι) (sops : List SemBuf)

structure SleepLocks (τ μ ρ ι : Type*) where
  /-- no queue of `include/kernel/wait.h` is in use -/
  threads : Threads τ Empty
  links : ListHeap (SleepNode τ μ ρ ι)
  mutex : μ → Mutex τ
  rwsem : ρ → RwWord τ
  semSet : ι → SemSet
  /-- the slots of `sem_sets` that `sys_semget` has set up -/
  slots : List ι
  /-- the call that a thread is in -/
  loop : τ → Option (SleepLoop μ ρ ι)
  /-- the value of its last `sys_semop` -/
  result : τ → ℤ

namespace SleepLocks
variable {τ μ ρ ι : Type*} [DecidableEq τ] [DecidableEq μ] [DecidableEq ρ] [DecidableEq ι]

section
variable (s : SleepLocks τ μ ρ ι)

def empty (q : SleepQueue μ ρ ι) : Bool := s.links.listEmpty (.head q)

def setMutex (m : μ) (v : Mutex τ) : SleepLocks τ μ ρ ι :=
  { s with mutex := update s.mutex m v }

def setRwsem (r : ρ) (v : RwWord τ) : SleepLocks τ μ ρ ι :=
  { s with rwsem := update s.rwsem r v }

def setSemSet (i : ι) (v : SemSet) : SleepLocks τ μ ρ ι :=
  { s with semSet := update s.semSet i v }

def setLoop (t : τ) (l : Option (SleepLoop μ ρ ι)) : SleepLocks τ μ ρ ι :=
  { s with loop := update s.loop t l }

def semReturn (t : τ) (v : ℤ) : SleepLocks τ μ ρ ι :=
  { s.setLoop t none with result := update s.result t v }

/-- `list_first_entry`, `list_del` and `sched_enqueue` on CPU `me`; no thread if the first node is
null or a head. -/
def wakeFirst (me : ℕ) (q : SleepQueue μ ρ ι) : Option (SleepLocks τ μ ρ ι) :=
  match s.links.next (.head q) with
  | some (.thread t) =>
    (s.links.listDel (.thread t)).map fun links =>
      let threads := s.threads.setState t .ready
      { s with links := links, threads := { threads with sched := threads.sched.enqueue me t } }
  | _ => none

end

/-- `while (!list_empty(..))` around the same, with a bound. -/
def wakeAll (me : ℕ) (q : SleepQueue μ ρ ι) : ℕ → SleepLocks τ μ ρ ι → Option (SleepLocks τ μ ρ ι)
  | 0, s => if s.empty q then some s else none
  | fuel + 1, s => if s.empty q then some s else (s.wakeFirst me q).bind (wakeAll me q fuel)

variable (s : SleepLocks τ μ ρ ι)

/-- The thread on CPU `c` sleeps on a queue and is switched away from. -/
def block (c : ℕ) (free : ℕ → Bool) (q : SleepQueue μ ρ ι) : Option (SleepLocks τ μ ρ ι) :=
  let t := s.threads.current c
  let threads := s.threads.setState t .waiting
  (s.links.listAddTail (.thread t) (.head q)).map fun links =>
    { s with links := links, threads := (threads.miSwitch c free).postSwitchHook c }

def mutexLockTurn (c : ℕ) (free : ℕ → Bool) (m : μ) : Option (SleepLocks τ μ ρ ι) :=
  let t := s.threads.current c
  if !(s.mutex m).locked then some ((s.setMutex m ⟨true, some t⟩).setLoop t none)
  else s.block c free (.mutex m)

def mutexUnlock (me : ℕ) (m : μ) : Option (SleepLocks τ μ ρ ι) :=
  let s := s.setMutex m ⟨false, none⟩
  if !s.empty (.mutex m) then s.wakeFirst me (.mutex m) else some s

def downReadTurn (c : ℕ) (free : ℕ → Bool) (r : ρ) : Option (SleepLocks τ μ ρ ι) :=
  let t := s.threads.current c
  let word := s.rwsem r
  if 0 ≤ word.count.toInt ∧ s.empty (.writers r) then
    some ((s.setRwsem r { word with count := word.count + 1 }).setLoop t none)
  else s.block c free (.readers r)

def downWriteTurn (c : ℕ) (free : ℕ → Bool) (r : ρ) : Option (SleepLocks τ μ ρ ι) :=
  let t := s.threads.current c
  if (s.rwsem r).count = 0 then some ((s.setRwsem r ⟨-1, some t⟩).setLoop t none)
  else s.block c free (.writers r)

/-- The end of `up_read` and `up_write`: a writer is woken before a reader. -/
def wakeWaiter (me : ℕ) (r : ρ) : Option (SleepLocks τ μ ρ ι) :=
  if !s.empty (.writers r) then s.wakeFirst me (.writers r)
  else if !s.empty (.readers r) then s.wakeFirst me (.readers r)
  else some s

def upRead (me : ℕ) (r : ρ) : Option (SleepLocks τ μ ρ ι) :=
  let word := s.rwsem r
  let s := s.setRwsem r { word with count := word.count - 1 }
  if word.count - 1 = 0 then s.wakeWaiter me r else some s

def upWrite (me : ℕ) (r : ρ) : Option (SleepLocks τ μ ρ ι) :=
  (s.setRwsem r ⟨0, none⟩).wakeWaiter me r

def downgradeWrite (r : ρ) : SleepLocks τ μ ρ ι :=
  s.setRwsem r ⟨1, none⟩

/-- `sys_semop` up to its loop; `copied`: the operations can be read. Errors: `EINVAL`, `EFAULT`. -/
def semop (s : SleepLocks τ μ ρ ι) (t : τ) (semid : ℤ) (sops : List SemBuf) (copied : Bool) :
    SleepLocks τ μ ρ ι :=
  if sops.length = 0 ∨ 32 < sops.length then s.semReturn t (-22)
  else if !copied then s.semReturn t (-14)
  else
    match s.slots.find? fun i => (s.semSet i).active && (s.semSet i).id == semid with
    | none => s.semReturn t (-22)
    | some i => s.setLoop t (some (.semop i sops))

/-- One turn of the loop of `sys_semop`; errors: `EIDRM`, `EFBIG`, `EAGAIN`. -/
def semopTurn (c : ℕ) (free : ℕ → Bool) (fuel : ℕ) (i : ι)
    (sops : List SemBuf) : Option (SleepLocks τ μ ρ ι) :=
  let t := s.threads.current c
  if !(s.semSet i).active then some (s.semReturn t (-43))
  else
    match (s.semSet i).check sops with
    | .tooBig => some (s.semReturn t (-27))
    | .canSucceed =>
      let set := sops.foldl SemSet.apply (s.semSet i)
      (wakeAll c (.sem i) fuel (s.setSemSet i set)).map fun s => s.semReturn t 0
    | .mustWait =>
      if sops.any fun op => op.semFlg &&& ipcNowait != 0 then some (s.semReturn t (-11))
      else s.block c free (.sem i)

def turn (c : ℕ) (free : ℕ → Bool) (fuel : ℕ) : Option (SleepLocks τ μ ρ ι) :=
  match s.loop (s.threads.current c) with
  | none => none
  | some (.mutexLock m) => s.mutexLockTurn c free m
  | some (.downRead r) => s.downReadTurn c free r
  | some (.downWrite r) => s.downWriteTurn c free r
  | some (.semop i sops) => s.semopTurn c free fuel i sops

inductive Call (μ ρ : Type*) where
  | mutexLock (m : μ)
  | mutexUnlock (m : μ)
  | downRead (r : ρ)
  | upRead (r : ρ)
  | downWrite (r : ρ)
  | upWrite (r : ρ)
  | downgradeWrite (r : ρ)
  | semop (semid : ℤ) (sops : List SemBuf) (copied : Bool)

/-- A call begins on CPU `c`; a release is one section. -/
def call (c : ℕ) : Call μ ρ → Option (SleepLocks τ μ ρ ι)
  | .mutexLock m => some (s.setLoop (s.threads.current c) (some (.mutexLock m)))
  | .mutexUnlock m => s.mutexUnlock c m
  | .downRead r => some (s.setLoop (s.threads.current c) (some (.downRead r)))
  | .upRead r => s.upRead c r
  | .downWrite r => some (s.setLoop (s.threads.current c) (some (.downWrite r)))
  | .upWrite r => s.upWrite c r
  | .downgradeWrite r => some (s.downgradeWrite r)
  | .semop semid sops copied => some (s.semop (s.threads.current c) semid sops copied)

inductive Event (τ μ ρ : Type*) where
  /-- a new thread is passed to `sched_enqueue` -/
  | spawn (c : ℕ) (t : τ)
  /-- a timer interrupt, or any other call of `mi_switch` -/
  | preempt (c : ℕ) (free : ℕ → Bool)
  | call (c : ℕ) (k : Call μ ρ)
  | turn (c : ℕ) (free : ℕ → Bool) (fuel : ℕ)
  | signalWakeup (c : ℕ) (t : τ) (fuel : ℕ)

def stepOn : Event τ μ ρ → Option (SleepLocks τ μ ρ ι)
  | .spawn c t =>
    if s.threads.alive t = false ∧ s.threads.sched.tid t ≠ 0 then
      some { s with threads := { s.threads with
        sched := s.threads.sched.enqueue c t
        alive := update s.threads.alive t true } }
    else none
  | .preempt c free => some { s with threads := (s.threads.miSwitch c free).postSwitchHook c }
  | .call c k => if (s.loop (s.threads.current c)).isNone then s.call c k else none
  | .turn c free fuel => s.turn c free fuel
  | .signalWakeup c t fuel =>
    (s.threads.sched.signalWakeup c t fuel).map fun sched =>
      { s with threads := { s.threads with sched := sched } }

def Event.cpu : Event τ μ ρ → ℕ
  | .spawn c _ => c
  | .preempt c _ => c
  | .call c _ => c
  | .turn c _ _ => c
  | .signalWakeup c _ _ => c

def step (e : Event τ μ ρ) : Option (SleepLocks τ μ ρ ι) :=
  if e.cpu < s.threads.sched.totalCores then s.stepOn e else none

def Next (e : Event τ μ ρ) (s' : SleepLocks τ μ ρ ι) : Prop :=
  s.step e = some s'

/-- Every wait queue is a ring of threads, no thread is on two or twice on one, and the run queues
are lists without a thread in common or repeated. -/
structure WellFormed : Prop where
  waitQueues : ∃ f : SleepQueue μ ρ ι → List τ,
    (∀ q, s.links.Ring (.head q) ((f q).map .thread)) ∧ (∀ q, (f q).Nodup) ∧
      ∀ q q' t, t ∈ f q → t ∈ f q' → q = q'
  runQueues : ∃ f, LinkedQueue.Family s.threads.sched.schedNext s.threads.sched.queues f

end SleepLocks
end Doppio
