import Doppio.Sched.Mlfq
import Doppio.Sys.UserCopy

/-! `sys_futex`, with threads `τ` of all processes and words of memory `κ`. A step is a section
under `futex_lock` or a switch to another thread, which clears `t_lock_to_release`. -/
namespace Doppio.Futex
open List
open Mmu (isUserAddressRange)
open Function (update update_apply)

/-- Out of `sys_futex` with its last result, before `thread_sleep`, or switched away from, with the
result of a wait that nobody ends. -/
inductive Pc where
  | returned (r : ℤ)
  | timed (ms : ℕ)
  | asleep (late : ℤ)
  deriving DecidableEq

structure System (τ κ : Type*) where
  /-- `g_futex_waiters` -/
  waiters : List τ
  /-- `t_futex_addr` -/
  addr : τ → ℕ
  state : τ → ThreadState
  /-- `t_lock_to_release` is not null -/
  lockToRelease : τ → Bool
  pc : τ → Pc
  /-- the word whose value the thread has seen, until it is woken; not in the kernel -/
  blocked : τ → Option κ

/-- The word that the address names for the caller with its value, and the timeout in milliseconds;
`none` if a copy fails. -/
inductive Event (τ κ : Type*) where
  | wait (t : τ) (uaddr : ℕ) (copy : Option (κ × BitVec 32)) (val : BitVec 32)
      (timeout : Option (Option ℕ))
  | wake (t : τ) (uaddr : ℕ) (word : Option κ) (val : BitVec 32)
  /-- `t` goes on in `sys_futex` -/
  | run (t : τ)
  /-- the timer or a signal makes `t` ready -/
  | ready (t : τ)

namespace System

variable {τ κ : Type*} [DecidableEq τ] {s s' : System τ κ}

def init : System τ κ := ⟨[], fun _ => 0, fun _ => .running, fun _ => false, fun _ => .returned 0,
  fun _ => none⟩

section
variable (s : System τ κ)

def ret (t : τ) (r : ℤ) : System τ κ := { s with pc := update s.pc t (.returned r) }

/-- `t` leaves the list, with `r` unless it was woken. -/
def leave (t : τ) (r : ℤ) : System τ κ :=
  { s with
    waiters := s.waiters.erase t
    addr := update s.addr t 0
    blocked := update s.blocked t none }.ret t (if s.addr t = 0 then 0 else r)

def wait (t : τ) (uaddr : ℕ) (copy : Option (κ × BitVec 32)) (val : BitVec 32)
    (timeout : Option (Option ℕ)) : System τ κ :=
  if !isUserAddressRange uaddr 4 then s.ret t (-eFAULT)
  else match copy with
    | none => s.ret t (-eFAULT)
    | some (word, uval) =>
      if uval ≠ val then s.ret t (-eAGAIN)
      else
        let s1 := { s with
          state := update s.state t .waiting
          addr := update s.addr t uaddr
          lockToRelease := update s.lockToRelease t true
          waiters := s.waiters ++ [t]
          blocked := update s.blocked t (some word) }
        match timeout with
        | none => { s1 with
            lockToRelease := update s1.lockToRelease t false
            pc := update s1.pc t (.asleep (-eINTR)) }
        -- the state and `t_lock_to_release` stay as they were set
        | some none => (s1.leave t 0).ret t (-eFAULT)
        | some (some ms) => { s1 with pc := update s1.pc t (.timed ms) }

/-- `thread_signal_wakeup` -/
def signalWakeup : ThreadState → ThreadState
  | .sleep | .waiting => .ready
  | state => state

def wakeOne (t : τ) : System τ κ :=
  { s with
    addr := update s.addr t 0
    state := update s.state t (signalWakeup (s.state t))
    blocked := update s.blocked t none }

end

/-- The loop of `FUTEX_WAKE` with `n` to wake, and the threads woken. -/
def wakeLoop (uaddr : ℕ) : List τ → ℕ → System τ κ → System τ κ × List τ
  | t :: ts, n + 1, s =>
    if s.addr t = uaddr then
      let r := wakeLoop uaddr ts n (s.wakeOne t)
      (r.1, t :: r.2)
    else wakeLoop uaddr ts (n + 1) s
  | _, _, s => (s, [])

/-- The loop compares with `(int)val`. -/
def wake (s : System τ κ) (t : τ) (uaddr : ℕ) (val : BitVec 32) : System τ κ :=
  if !isUserAddressRange uaddr 4 then s.ret t (-eFAULT)
  else
    let r := wakeLoop uaddr s.waiters val.toInt.toNat s
    r.1.ret t r.2.length

def inCall (s : System τ κ) (t : τ) : Bool :=
  match s.pc t with
  | .returned _ => false
  | _ => true

def step (s : System τ κ) : Event τ κ → Option (System τ κ)
  | .wait t uaddr copy val timeout =>
    if s.inCall t then none else some (s.wait t uaddr copy val timeout)
  | .wake t uaddr _ val => if s.inCall t then none else some (s.wake t uaddr val)
  | .ready t => some { s with state := update s.state t (signalWakeup (s.state t)) }
  | .run t => match s.pc t with
    | .returned _ => none
    -- without `thread_sleep`
    | .timed 0 => some (s.leave t (-eTIMEDOUT))
    | .timed (_ + 1) => some { s with
        state := update s.state t .sleep
        lockToRelease := update s.lockToRelease t false
        pc := update s.pc t (.asleep (-eTIMEDOUT)) }
    | .asleep late =>
      if s.state t = .ready then
        some ({ s with state := update s.state t .running }.leave t late)
      else none

variable {t : τ} {W : ℕ → Option κ}

omit [DecidableEq τ] in
theorem inCall_eq_false : s.inCall t = false ↔ ∃ r, s.pc t = .returned r := by
  cases h : s.pc t <;> simp [inCall, h]

/-- A listed thread was woken or waits for the word at its address, if `W` has the words. -/
structure Sound (W : ℕ → Option κ) (s : System τ κ) : Prop where
  nodup : s.waiters.Nodup
  agrees : ∀ u ∈ s.waiters, if s.addr u = 0 then s.blocked u = none
    else ∃ word, W (s.addr u) = some word ∧ s.blocked u = some word
  returned : ∀ t r, s.pc t = .returned r →
    t ∉ s.waiters ∧ s.lockToRelease t = false ∧ s.state t ≠ .waiting
  timed : ∀ t ms, s.pc t = .timed ms → ms ≠ 0 ∧ s.lockToRelease t = true
  asleep : ∀ t r, s.pc t = .asleep r →
    s.lockToRelease t = false ∧ signalWakeup (s.state t) = .ready

theorem wakeLoop_spec (uaddr : ℕ) (ts : List τ) (n : ℕ) (s : System τ κ) (hnodup : ts.Nodup) :
    (wakeLoop uaddr ts n s).2 = (ts.filter fun u => s.addr u = uaddr).take n ∧
      ∃ addr state blocked, (wakeLoop uaddr ts n s).1 =
          { s with addr := addr, state := state, blocked := blocked } ∧
        ∀ u, (u ∈ (wakeLoop uaddr ts n s).2 →
            addr u = 0 ∧ state u = signalWakeup (s.state u) ∧ blocked u = none) ∧
          (u ∉ (wakeLoop uaddr ts n s).2 →
            addr u = s.addr u ∧ state u = s.state u ∧ blocked u = s.blocked u) := by
  fun_induction wakeLoop uaddr ts n s with
  | case1 t ts n s haddr r ih =>
    obtain ⟨hnot, hnodup⟩ := nodup_cons.mp hnodup
    obtain ⟨hwoken, addr, state, blocked, heq, hall⟩ := ih hnodup
    have hsame : (ts.filter fun u => (s.wakeOne t).addr u = uaddr) =
        ts.filter fun u => s.addr u = uaddr :=
      filter_congr fun u hu => by
        simp [wakeOne, ne_of_mem_of_not_mem hu hnot]
    have hsub : t ∉ r.2 := fun ht =>
      hnot (mem_of_mem_filter (mem_of_mem_take (hwoken ▸ ht)))
    refine ⟨by simp [haddr, r, hwoken, hsame], addr, state, blocked, heq, fun u => ?_⟩
    have hu := hall u
    by_cases hut : u = t
    · subst hut
      simpa [wakeOne] using hu.2 hsub
    · simpa [wakeOne, hut, r] using hu
  | case2 t ts n s haddr ih =>
    simpa [haddr] using ih (nodup_cons.mp hnodup).2
  | case3 ts n s hne =>
    refine ⟨?_, s.addr, s.state, s.blocked, rfl, by simp⟩
    cases n <;> cases ts <;> simp at *

theorem Sound.leave {r : ℤ} (h : s.Sound W) (hlock : s.lockToRelease t = false) :
    ({ s with state := update s.state t .running }.leave t r).Sound W := by
  obtain ⟨hnodup, hagrees, hreturned, htimed, hasleep⟩ := h
  have herase (u : τ) : u ∈ s.waiters.erase t ↔ u ≠ t ∧ u ∈ s.waiters := hnodup.mem_erase_iff
  constructor <;> simp only [System.leave, ret, update_apply]
  · exact hnodup.erase t
  all_goals grind

theorem Sound.wake {uaddr : ℕ} {val : BitVec 32} (h : s.Sound W) (ht : s.inCall t = false) :
    (s.wake t uaddr val).Sound W := by
  obtain ⟨r, hr⟩ := inCall_eq_false.mp ht
  obtain ⟨hnodup, hagrees, hreturned, htimed, hasleep⟩ := h
  obtain ⟨-, addr, state, blocked, heq, hall⟩ :=
    wakeLoop_spec uaddr s.waiters val.toInt.toNat s hnodup
  have hstate (u : τ) : (s.state u ≠ .waiting → state u ≠ .waiting) ∧
      signalWakeup (state u) = signalWakeup (s.state u) := by
    have hor : state u = s.state u ∨ state u = signalWakeup (s.state u) := by grind
    rcases hor with hor | hor <;> rw [hor] <;> cases s.state u <;> simp [signalWakeup]
  unfold System.wake
  split_ifs
  · constructor <;> simp only [ret] <;> grind
  · constructor <;> simp only [ret, heq] <;> grind

variable [DecidableEq κ] {e : Event τ κ}

/-- A wait that gets to the list is for the word that `W` has at its address, not 0, with no timeout
or at least a millisecond. -/
def ok (W : ℕ → Option κ) : Event τ κ → Bool
  | .wait _ uaddr (some (word, uval)) val timeout =>
    !isUserAddressRange uaddr 4 || uval ≠ val ||
      uaddr ≠ 0 && W uaddr = some word && timeout ≠ some none && timeout ≠ some (some 0)
  | _ => true

theorem Sound.wait {uaddr : ℕ} {copy : Option (κ × BitVec 32)} {val : BitVec 32}
    {timeout : Option (Option ℕ)} (h : s.Sound W) (ht : s.inCall t = false)
    (hok : ok W (.wait t uaddr copy val timeout)) :
    (s.wait t uaddr copy val timeout).Sound W := by
  obtain ⟨r, hr⟩ := inCall_eq_false.mp ht
  obtain ⟨hnodup, hagrees, hreturned, htimed, hasleep⟩ := h
  have hlink : (s.waiters ++ [t]).Nodup := by
    simpa using hnodup.concat (hreturned t r hr).1
  fun_cases System.wait <;> constructor <;> simp only [ret, update_apply] <;> grind [ok, signalWakeup]

theorem Sound.step (h : s.Sound W) (hok : ok W e) (hs : s.step e = some s') : s'.Sound W := by
  cases e with
  | wait t uaddr copy val timeout =>
    obtain ⟨ht, hs⟩ := Option.ite_none_left_eq_some.mp hs
    cases hs
    exact h.wait (by simpa using ht) hok
  | wake t uaddr word val =>
    obtain ⟨ht, hs⟩ := Option.ite_none_left_eq_some.mp hs
    cases hs
    exact h.wake (by simpa using ht)
  | ready t =>
    cases hs
    obtain ⟨hnodup, hagrees, hreturned, htimed, hasleep⟩ := h
    constructor <;> simp only [update_apply] <;> grind [signalWakeup]
  | run t =>
    unfold System.step at hs
    cases hpc : s.pc t with
    | returned r => simp [hpc] at hs
    | timed ms =>
      cases ms with
      | zero => exact absurd rfl (h.timed t 0 hpc).1
      | succ ms =>
        simp only [hpc] at hs
        cases hs
        obtain ⟨hnodup, hagrees, hreturned, htimed, hasleep⟩ := h
        constructor <;> simp only [update_apply] <;> grind [signalWakeup]
    | asleep late =>
      simp only [hpc] at hs
      obtain ⟨-, hs⟩ := Option.ite_none_right_eq_some.mp hs
      cases hs
      exact h.leave (h.asleep t late hpc).1

def Next (s : System τ κ) (e : Event τ κ) (s' : System τ κ) : Prop := s.step e = some s'

end System
end Doppio.Futex
