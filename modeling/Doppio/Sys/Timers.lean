import Doppio.Library.Run
import Mathlib.Tactic.Ring

/-! The ticks of a timerfd (`kernel/sys/sys_fd.c`) and the expiries of POSIX timers
(`kernel/sys/sys_timer.c`). -/
namespace Doppio.Timers

/-- The expiries up to `now` of a timer that first expires at `E`, then every `I`. -/
def expiries (E I now : ℕ) : ℕ := if now < E then 0 else (now - E) / I + 1

theorem lt_next {I : ℕ} (hI : 0 < I) (E now : ℕ) : now < E + expiries E I now * I := by
  unfold expiries
  split_ifs with hlt
  · omega
  · have hdiv := Nat.lt_mul_div_succ (now - E) hI
    rw [Nat.mul_comm I] at hdiv
    omega

/-- Counting on from the first expiry after `n` gives what counting from `E` gives. -/
theorem expiries_add {I n m : ℕ} (hI : 0 < I) (E : ℕ) (h : n ≤ m) :
    expiries E I n + expiries (E + expiries E I n * I) I m = expiries E I m := by
  by_cases hn : n < E
  · simp [expiries, hn]
  · have hm : ¬m < E := by omega
    have hle : (n - E) / I ≤ (m - E) / I := Nat.div_le_div_right (by omega)
    simp only [expiries]
    split_ifs with hlt
    · have hdiv : (m - E) / I < (n - E) / I + 1 := (Nat.div_lt_iff_lt_mul hI).mpr (by omega)
      omega
    · have hsub : m - E = m - (E + ((n - E) / I + 1) * I) + ((n - E) / I + 1) * I := by omega
      have hdiv := congrArg (· / I) hsub
      simp only [Nat.add_mul_div_right _ _ hI] at hdiv
      omega

section Timerfd

/-- `struct timerfd_buffer`, with the ticks returned by reads and the time of the last call. -/
structure TimerFd where
  ticksCount : ℕ
  expireTime : ℕ
  interval : ℕ
  returned : ℕ
  now : ℕ
  deriving DecidableEq

namespace TimerFd

def armed (E I : ℕ) : TimerFd := ⟨0, E, I, 0, 0⟩

def timerfdUpdateTicks (tb : TimerFd) (now : ℕ) : TimerFd :=
  let tb := { tb with now }
  if tb.expireTime = 0 then tb
  else if now ≥ tb.expireTime then
    if tb.interval = 0 then
      { tb with ticksCount := (tb.ticksCount + 1) % 2 ^ 64, expireTime := 0 }
    else
      let missed := 1 + (now - tb.expireTime) / tb.interval
      { tb with
        ticksCount := (tb.ticksCount + missed) % 2 ^ 64
        expireTime := (tb.expireTime + missed * tb.interval) % 2 ^ 64 }
  else tb

inductive Event where
  /-- `sys_timerfd_gettime`, an epoll check, or a `sys_timerfd_settime` that then fails -/
  | query (now : ℕ)
  /-- A round of `timerfd_read`; `copied`: the ticks get to the caller's buffer. -/
  | read (now : ℕ) (copied : Bool)

def Event.now : Event → ℕ
  | .query now | .read now _ => now

def call (tb : TimerFd) : Event → TimerFd
  | .query now => tb.timerfdUpdateTicks now
  | .read now copied =>
    let tb := tb.timerfdUpdateTicks now
    { tb with
      ticksCount := 0
      returned := if copied then tb.returned + tb.ticksCount else tb.returned }

/-- Times do not decrease. -/
def step (tb : TimerFd) (e : Event) (tb' : TimerFd) : Prop := tb.now ≤ e.now ∧ tb' = tb.call e

/-- The expiries stay below 2^64, and a read that finds ticks can copy them. -/
def Ok (E I : ℕ) (tb : TimerFd) (e : Event) : Prop :=
  E + expiries E I e.now * I < 2 ^ 64 ∧
    ∀ now, e = .read now false → (tb.timerfdUpdateTicks now).ticksCount = 0

/-- All expiries so far are counted or have been returned. -/
structure Counted (E I : ℕ) (tb : TimerFd) : Prop where
  interval : tb.interval = I
  expire : tb.expireTime = E + expiries E I tb.now * I
  ticks : tb.returned + tb.ticksCount = expiries E I tb.now

variable {E I : ℕ} {tb : TimerFd}

theorem Counted.timerfdUpdateTicks (h : tb.Counted E I) (hE : 0 < E) (hI : 0 < I) {now : ℕ}
    (hnow : tb.now ≤ now) (hlt : E + expiries E I now * I < 2 ^ 64) :
    (tb.timerfdUpdateTicks now).Counted E I := by
  have hadd := expiries_add hI E hnow
  rw [← h.expire] at hadd
  have hne : tb.expireTime ≠ 0 := by have := h.expire; omega
  have hint : tb.interval ≠ 0 := by have := h.interval; omega
  simp only [TimerFd.timerfdUpdateTicks, if_neg hne]
  split_ifs with hge
  · -- the expiries since `tb.now` are the missed ticks
    have hmissed : expiries tb.expireTime I now = 1 + (now - tb.expireTime) / tb.interval := by
      rw [expiries, if_neg (by omega), h.interval, Nat.add_comm]
    have hmul : tb.expireTime + expiries tb.expireTime I now * I = E + expiries E I now * I := by
      rw [← hadd, Nat.add_mul, ← Nat.add_assoc, ← h.expire]
    have hle : expiries E I now ≤ expiries E I now * I := Nat.le_mul_of_pos_right _ hI
    have hticks := h.ticks
    rw [← hmissed, h.interval, hmul, Nat.mod_eq_of_lt hlt]
    exact ⟨rfl, rfl, by simp only; omega⟩
  · have hsame : expiries E I now = expiries E I tb.now := by
      rw [← hadd, expiries.eq_def tb.expireTime, if_pos (by omega), Nat.add_zero]
    exact ⟨h.interval, by rw [hsame]; exact h.expire, by rw [hsame]; exact h.ticks⟩

theorem Counted.call (h : tb.Counted E I) (hE : 0 < E) (hI : 0 < I) {e : Event}
    (hnow : tb.now ≤ e.now) (hok : tb.Ok E I e) : (tb.call e).Counted E I := by
  have hup := h.timerfdUpdateTicks hE hI hnow hok.1
  cases e with
  | query now => exact hup
  | read now copied =>
    refine ⟨hup.interval, hup.expire, ?_⟩
    cases copied with
    | true => exact hup.ticks
    | false =>
      exact (congrArg _ (hok.2 now rfl).symm).trans hup.ticks

/-- The ticks that reads return and those still counted are the expiries so far, however often the
timer is polled, and the next expiry is later than the last call. -/
theorem reaches_ticks (hE : 0 < E) (hI : 0 < I)
    (h : Run.Reaches step (Ok E I) (armed E I) tb) :
    tb.returned + tb.ticksCount = expiries E I tb.now ∧ tb.now < tb.expireTime := by
  have hc : tb.Counted E I := by
    refine h.invariant ?_ ⟨rfl, by simp [armed, expiries, hE], by simp [armed, expiries, hE]⟩
    rintro tb e _ hc hok ⟨hnow, rfl⟩
    exact hc.call hE hI hnow hok
  exact ⟨hc.ticks, by rw [hc.expire]; exact lt_next hI E tb.now⟩

theorem reaches_ticks_three : ∃ tb : TimerFd, Run.Reaches step (Ok 10 5) (armed 10 5) tb ∧
    tb.returned = 3 ∧ tb.returned + tb.ticksCount = expiries 10 5 20 ∧ 20 < tb.expireTime := by
  have hrun : Run.Reaches step (Ok 10 5) (armed 10 5) ((armed 10 5).call (.read 20 true)) :=
    .single _ ⟨by decide, by simp⟩ ⟨by decide, rfl⟩
  exact ⟨_, hrun, by decide, reaches_ticks (by decide) (by decide) hrun⟩

/-- A read into a buffer without a page loses the ticks that it has taken. -/
theorem read_loses_ticks : step (armed 10 5) (.read 20 false) ⟨0, 25, 5, 0, 20⟩ ∧
    expiries 10 5 20 = 3 := by
  exact ⟨⟨by decide, by decide +kernel⟩, by decide⟩

end TimerFd
end Timerfd

section Settime

/-- `struct timespec` -/
structure Timespec where
  sec : ℤ
  nsec : ℤ

namespace Timespec

def ns (t : Timespec) : ℤ := t.sec * 10 ^ 9 + t.nsec

/-- The sum as the kernel computes it, in 64 bits. -/
def ns64 (t : Timespec) : ℤ := t.ns % 2 ^ 64

def valid (t : Timespec) : Bool := 0 ≤ t.sec ∧ 0 ≤ t.nsec ∧ t.nsec < 10 ^ 9

end Timespec

structure Itimerspec where
  interval : Timespec
  value : Timespec

/-- The expiry (0: disarmed) and the interval of a timer. -/
structure Timer where
  value : ℤ
  interval : ℤ
  deriving DecidableEq

variable (spec : Itimerspec) (abstime : Bool) (now : ℤ)

def sysTimerfdSettime : Timer :=
  if spec.value.ns64 = 0 then ⟨0, 0⟩
  else ⟨if abstime then spec.value.ns64 else (now + spec.value.ns64) % 2 ^ 64, spec.interval.ns64⟩

/-- `sys_timer_settime`; `none`: `-EINVAL`. -/
def sysTimerSettime : Option Timer :=
  if spec.value.valid ∧ spec.interval.valid then some (sysTimerfdSettime spec abstime now) else none

/-- The mathematical expiry time. -/
def due : ℤ := if abstime then spec.value.ns else now + spec.value.ns

/-- The expiry time fits in 64 bits, or the timer is disarmed. -/
def Fits : Prop :=
  due spec abstime now < 2 ^ 64 ∨ spec.value.ns % 2 ^ 64 = 0 ∨ due spec abstime now % 2 ^ 64 = 0

namespace Timer

def Expires (t : Timer) (now : ℤ) : Prop := 0 < t.value ∧ t.value ≤ now

instance (t : Timer) (now : ℤ) : Decidable (t.Expires now) := inferInstanceAs (Decidable (_ ∧ _))

/-- The expiry that `posix_timers_tick` sets after a fire. -/
def next (t : Timer) (now : ℤ) : ℤ :=
  if t.interval > 0 then
    let value := (t.value + t.interval) % 2 ^ 64
    if value ≤ now then (now + t.interval) % 2 ^ 64 else value
  else 0

theorem le_next {t : Timer} {now : ℤ} (h : t.Expires now) (hvalue : t.value + t.interval < 2 ^ 64)
    (hnow : now + t.interval < 2 ^ 64) : t.next now = 0 ∨ t.value + t.interval ≤ t.next now := by
  obtain ⟨hpos, hle⟩ := h
  unfold next
  split_ifs with hper
  · rw [Int.emod_eq_of_lt (by omega) hvalue, Int.emod_eq_of_lt (by omega) hnow]
    simp only
    split_ifs <;> omega
  · exact Or.inl rfl

end Timer

theorem settime_value : (sysTimerfdSettime spec abstime now).value =
    if spec.value.ns % 2 ^ 64 = 0 then 0 else due spec abstime now % 2 ^ 64 := by
  unfold sysTimerfdSettime due Timespec.ns64
  split_ifs <;> simp

theorem settime_on_time_iff :
    (∀ t, (sysTimerfdSettime spec abstime now).Expires t → due spec abstime now ≤ t) ↔
      Fits spec abstime now := by
  rw [Fits]
  have hval := settime_value spec abstime now
  split_ifs at hval with hzero
  · exact iff_of_true (by simp [Timer.Expires, hval]) (Or.inr (Or.inl hzero))
  · have hmod := Int.emod_nonneg (due spec abstime now) (by decide : (2 ^ 64 : ℤ) ≠ 0)
    have hlt := Int.emod_lt_of_pos (due spec abstime now) (by decide : (0 : ℤ) < 2 ^ 64)
    simp only [Timer.Expires, hval]
    constructor
    · intro h
      by_cases h0 : due spec abstime now % 2 ^ 64 = 0
      · exact Or.inr (Or.inr h0)
      · have := h _ ⟨by omega, le_rfl⟩
        omega
    · rintro h t ⟨hpos, hle⟩
      omega

/-- A fire of a POSIX timer: the expiry that it was for, and its time. -/
structure Fire where
  scheduled : ℤ
  time : ℤ
  deriving DecidableEq

/-- A POSIX timer and its fires, the last one first. -/
structure Posix where
  timer : Timer
  fires : List Fire

namespace Posix

/-- `posix_timers_tick` for one timer. -/
def posixTimersTick (s : Posix) (now : ℤ) : Posix :=
  if s.timer.Expires now then
    ⟨{ s.timer with value := s.timer.next now }, ⟨s.timer.value, now⟩ :: s.fires⟩
  else s

/-- The next expiry fits in 64 bits. -/
def Fits (s : Posix) (now : ℤ) : Prop :=
  s.timer.value + s.timer.interval < 2 ^ 64 ∧ now + s.timer.interval < 2 ^ 64

/-- No fire is before the time `due`, nor within an interval `I` of the expiry of an earlier one. -/
def OnTime (due I : ℤ) (s : Posix) : Prop :=
  (∀ f ∈ s.fires, due ≤ f.time) ∧ s.fires.Pairwise fun g f => f.scheduled + I ≤ g.time

structure Inv (due I : ℤ) (s : Posix) : Prop where
  onTime : s.OnTime due I
  interval : s.timer.value = 0 ∨ s.timer.interval = I
  due_le : s.timer.value = 0 ∨ due ≤ s.timer.value
  later : ∀ f ∈ s.fires, s.timer.value = 0 ∨ f.scheduled + I ≤ s.timer.value

variable {d I now : ℤ} {s : Posix}

theorem Inv.posixTimersTick (h : s.Inv d I) (hI : 0 ≤ I) (hfit : s.Fits now) :
    (s.posixTimersTick now).Inv d I := by
  unfold Posix.posixTimersTick
  split_ifs with hexp
  · have hne : s.timer.value ≠ 0 := hexp.1.ne'
    have hdue := h.due_le.resolve_left hne
    have hlater f (hf : f ∈ s.fires) := (h.later f hf).resolve_left hne
    have hnext := Timer.le_next hexp hfit.1 hfit.2
    rw [h.interval.resolve_left hne] at hnext
    refine ⟨⟨?_, ?_⟩, Or.inr (h.interval.resolve_left hne), ?_, ?_⟩
    · exact List.forall_mem_cons.mpr ⟨hdue.trans hexp.2, h.onTime.1⟩
    · exact List.pairwise_cons.mpr ⟨fun f hf => (hlater f hf).trans hexp.2, h.onTime.2⟩
    · exact hnext.imp_right fun hle => (by omega : d ≤ s.timer.next now)
    · intro f hf
      refine hnext.imp_right fun hle => ?_
      rcases List.mem_cons.mp hf with rfl | hf
      · exact hle
      · exact (hlater f hf).trans (by omega : s.timer.value ≤ s.timer.next now)
  · exact h

theorem inv_settime {spec : Itimerspec} {abstime : Bool} (hfits : Timers.Fits spec abstime now)
    (hI0 : 0 ≤ spec.interval.ns) (hI : spec.interval.ns < 2 ^ 64) :
    Inv (due spec abstime now) spec.interval.ns ⟨sysTimerfdSettime spec abstime now, []⟩ := by
  refine ⟨⟨by simp, by simp⟩, ?_, ?_, by simp⟩
  · unfold sysTimerfdSettime
    split_ifs
    · exact Or.inl rfl
    all_goals exact Or.inr (Int.emod_eq_of_lt hI0 hI)
  · have hnonneg : 0 ≤ (sysTimerfdSettime spec abstime now).value := by
      rw [settime_value]
      split_ifs
      · exact le_rfl
      · exact Int.emod_nonneg _ (by decide)
    rcases hnonneg.eq_or_lt with h0 | hpos
    · exact Or.inl h0.symm
    · exact Or.inr ((settime_on_time_iff spec abstime now).mpr hfits _ ⟨hpos, le_rfl⟩)

end Posix

/-- No timer expires early exactly if its expiry time fits in 64 bits or it is disarmed, and no fire
of a POSIX timer is early as long as its expiries and its interval fit. -/
theorem settime_on_time :
    ((∀ t, (sysTimerfdSettime spec abstime now).Expires t → due spec abstime now ≤ t) ↔
      Fits spec abstime now) ∧
    ∀ timer ∈ sysTimerSettime spec abstime now,
      ((∀ t, timer.Expires t → due spec abstime now ≤ t) ↔ Fits spec abstime now) ∧
      (Fits spec abstime now → spec.interval.ns < 2 ^ 64 → ∀ s,
        Run.Reaches (fun s now s' => s.posixTimersTick now = s') Posix.Fits ⟨timer, []⟩ s →
        s.OnTime (due spec abstime now) spec.interval.ns) := by
  refine ⟨settime_on_time_iff spec abstime now, fun timer ht => ?_⟩
  obtain ⟨⟨-, hvalid⟩, ht⟩ := Option.ite_none_right_eq_some.mp ht
  cases ht
  refine ⟨settime_on_time_iff spec abstime now, fun hfits hI s h => ?_⟩
  have hI0 : 0 ≤ spec.interval.ns := by
    simp only [Timespec.valid, decide_eq_true_eq] at hvalid
    unfold Timespec.ns
    omega
  refine (h.invariant ?_ (Posix.inv_settime hfits hI0 hI)).onTime
  rintro s t _ hs hfit rfl
  exact hs.posixTimersTick hI0 hfit

theorem settime_on_time_periodic : ∃ s : Posix, s.fires = [⟨20, 21⟩, ⟨10, 10⟩] ∧ s.OnTime 10 10 := by
  refine ⟨_, rfl, ((settime_on_time ⟨⟨0, 10⟩, ⟨0, 10⟩⟩ true 0).2 _ rfl).2 (.inl (by decide))
    (by decide) (Posix.posixTimersTick (Posix.posixTimersTick ⟨⟨10, 10⟩, []⟩ 10) 21) ?_⟩
  exact (Run.Reaches.single 10 (by constructor <;> decide) rfl).trans
    (.single 21 (by constructor <;> decide) rfl)

/-- A timer for 18446744074 s expires in less than one; one with an interval of 2^64 - 1 ns fires at
two ticks in a row. -/
theorem settime_early :
    (∃ timer ∈ sysTimerSettime ⟨⟨0, 0⟩, ⟨18446744074, 0⟩⟩ false 0, timer.Expires 290448384) ∧
    ∃ timer ∈ sysTimerSettime ⟨⟨18446744073, 709551615⟩, ⟨0, 10⟩⟩ true 0,
      (((Posix.mk timer []).posixTimersTick 10).posixTimersTick 11).fires = [⟨9, 11⟩, ⟨10, 10⟩] := by
  exact ⟨⟨_, rfl, by decide⟩, _, rfl, rfl⟩

end Settime
end Doppio.Timers
