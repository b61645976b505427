import Doppio.Library.Run
import Mathlib.Data.List.Nodup

/-! Exit statuses: `sys_wait4` of `kernel/sys/sys_proc.c` after forks and exits, call by call. A
report is what a call that returns the pid has given out. -/
namespace Doppio.WaitStatus
open Function Option

structure Proc where
  pid : BitVec 32
  parent : Option ℕ
  children : List ℕ
  /-- `p_exit_status` of a process that is a zombie -/
  exited : Option (BitVec 32)
  deriving DecidableEq

/-- The pid returned and the value stored through the status pointer, unless `NULL`. -/
structure Report where
  pid : BitVec 32
  wstatus : Option (BitVec 32)
  deriving DecidableEq

structure State where
  proc : ℕ → Option Proc
  /-- the calls of `sys_wait4` that returned its pid -/
  reports : ℕ → List Report

inductive StatusPtr where
  | null
  /-- outside user memory or not mapped: `copy_to_user` fails -/
  | bad
  | good
  deriving DecidableEq

inductive Result where
  | pid (child : BitVec 32)
  | echild
  | efault
  /-- no zombie yet: 0 with `WNOHANG`, else the caller sleeps -/
  | later
  deriving DecidableEq

inductive Event where
  | fork (p c : ℕ) (pid : BitVec 32)
  | exit (p : ℕ) (status : BitVec 32)
  | wait4 (p : ℕ) (pid : BitVec 32) (wstatus : StatusPtr)

namespace State

section
variable (s : State)

def set (p : ℕ) (P : Proc) : State := { s with proc := update s.proc p (some P) }

def Matches (pid : BitVec 32) (c : ℕ) : Bool :=
  pid = -1 || (s.proc c).any (·.pid = pid)

def IsZombie (c : ℕ) : Bool := (s.proc c).any (·.exited.isSome)

def findChild (pid : BitVec 32) (children : List ℕ) : Option ℕ :=
  children.find? fun c => s.Matches pid c && s.IsZombie c

def wstatusVal (status : BitVec 32) : BitVec 32 := (status &&& 0xff) <<< 8

/-- The child is off the list before its status is stored. -/
def deliver (p : ℕ) (P : Proc) (c : ℕ) (C : Proc) (wstatus : StatusPtr) : Result × State :=
  let s := s.set p { P with children := P.children.erase c }
  let report (w : Option (BitVec 32)) : Result × State :=
    (.pid C.pid, { s with reports := update s.reports c (s.reports c ++ [⟨C.pid, w⟩]) })
  match wstatus with
  | .null => report none
  | .bad => (.efault, s)
  | .good => report (C.exited.map wstatusVal)

def sysWait4 (p : ℕ) (P : Proc) (pid : BitVec 32) (wstatus : StatusPtr) : Result × State :=
  match s.findChild pid P.children with
  | some c => (s.proc c).elim (.echild, s) fun C => s.deliver p P c C wstatus
  | none => (if P.children.any (s.Matches pid) then .later else .echild, s)

/-- One call by a process that has not exited; `c` is new in a fork. -/
def step : Event → Option State
  | .fork p c pid => do
    let P ← s.proc p
    if P.exited = none ∧ s.proc c = none ∧ s.reports c = [] then
      some ((s.set c ⟨pid, some p, [], none⟩).set p { P with children := P.children ++ [c] })
    else none
  | .exit p status => do
    let P ← s.proc p
    if P.exited = none then some (s.set p { P with exited := some status }) else none
  | .wait4 p pid wstatus => do
    let P ← s.proc p
    if P.exited = none then some (s.sysWait4 p P pid wstatus).2 else none

/-- A process exits with all children collected, and `sys_wait4` can store the status of a zombie.
-/
def Kept : Event → Prop
  | .fork .. => True
  | .exit p _ => ∀ P ∈ s.proc p, P.children = []
  | .wait4 p pid wstatus => ∀ P ∈ s.proc p, (s.findChild pid P.children).isSome → wstatus ≠ .bad

instance (e : Event) : Decidable (s.Kept e) :=
  match e with
  | .fork .. => inferInstanceAs (Decidable True)
  | .exit p _ => inferInstanceAs (Decidable (∀ P ∈ s.proc p, P.children = []))
  | .wait4 p pid wstatus => inferInstanceAs (Decidable
      (∀ P ∈ s.proc p, (s.findChild pid P.children).isSome → wstatus ≠ .bad))

end

variable {s s' : State} {p c q : ℕ} {P C Q : Proc}

@[simp] theorem set_proc : (s.set p P).proc q = if q = p then some P else s.proc q :=
  update_apply ..

@[simp] theorem set_reports : (s.set p P).reports = s.reports := rfl

/-- The one report of a process that exited with this status. -/
def Reported (s : State) (c : ℕ) (C : Proc) (status : BitVec 32) : Prop :=
  s.reports c = [⟨C.pid, none⟩] ∨ s.reports c = [⟨C.pid, some (wstatusVal status)⟩]

/-- A child is on the list of its parent until its status is reported. -/
structure Sound (s : State) : Prop where
  nodup : ∀ q Q, s.proc q = some Q → Q.children.Nodup
  running : ∀ q Q, s.proc q = some Q → Q.exited ≠ none → Q.children = []
  child : ∀ q Q, s.proc q = some Q → ∀ c ∈ Q.children, ∃ C, s.proc c = some C ∧ C.parent = some q
  kept : ∀ c C q, s.proc c = some C → C.parent = some q → ∃ Q, s.proc q = some Q ∧
    (c ∈ Q.children ∧ s.reports c = [] ∨
      c ∉ Q.children ∧ ∃ status, C.exited = some status ∧ s.Reported c C status)

theorem Sound.fork (h : s.Sound) (hP : s.proc p = some P) (hrun : P.exited = none)
    (hc : s.proc c = none) (hreports : s.reports c = []) (pid : BitVec 32) :
    ((s.set c ⟨pid, some p, [], none⟩).set p { P with children := P.children ++ [c] }).Sound := by
  obtain ⟨hnodup, hrunning, hchild, hkept⟩ := h
  constructor
  · intro q Q hQ
    grind [set_proc, List.nodup_append]
  · grind [set_proc]
  · intro q Q hQ d hd
    grind [set_proc]
  · intro d D q hD hq
    simp only [Reported, set_reports] at *
    grind [set_proc]

theorem Sound.exit (h : s.Sound) (hP : s.proc p = some P) (hchildren : P.children = [])
    (hrun : P.exited = none) (status : BitVec 32) :
    (s.set p { P with exited := some status }).Sound := by
  obtain ⟨hnodup, hrunning, hchild, hkept⟩ := h
  constructor
  · grind [set_proc]
  · grind [set_proc]
  · intro q Q hQ d hd
    grind [set_proc]
  · intro d D q hD hq
    simp only [Reported, set_reports] at *
    grind [set_proc]

theorem Sound.report (h : s.Sound) (hP : s.proc p = some P) (hc : c ∈ P.children)
    (hC : s.proc c = some C) {status : BitVec 32} (hstatus : C.exited = some status)
    {w : Option (BitVec 32)} (hw : w = none ∨ w = some (wstatusVal status)) :
    State.Sound ⟨(s.set p { P with children := P.children.erase c }).proc,
      update s.reports c (s.reports c ++ [⟨C.pid, w⟩])⟩ := by
  obtain ⟨hnodup, hrunning, hchild, hkept⟩ := h
  have hnone : s.reports c = [] := by grind
  constructor
  · intro q Q hQ
    grind [set_proc]
  · grind [set_proc]
  · intro q Q hQ d hd
    grind [set_proc]
  · intro d D q hD hq
    simp only [Reported, update_apply, hnone] at *
    grind [set_proc]

theorem exists_of_findChild {pid : BitVec 32} {l : List ℕ} (h : s.findChild pid l = some c) :
    c ∈ l ∧ ∃ C status, s.proc c = some C ∧ C.exited = some status := by
  refine ⟨List.mem_of_find?_eq_some h, ?_⟩
  have hz := List.find?_some h
  simp only [IsZombie, Bool.and_eq_true, any_eq_true, isSome_iff_exists] at hz
  obtain ⟨-, C, hC, status, hstatus⟩ := hz
  exact ⟨C, status, hC, hstatus⟩

theorem Sound.sysWait4 (h : s.Sound) (hP : s.proc p = some P) {pid : BitVec 32} {w : StatusPtr}
    (hok : s.Kept (.wait4 p pid w)) :
    (∃ child, (s.sysWait4 p P pid w).1 = .pid child) ∧ (s.sysWait4 p P pid w).2.Sound ∨
      (s.sysWait4 p P pid w).2 = s := by
  unfold State.sysWait4
  cases hfind : s.findChild pid P.children with
  | none => exact .inr rfl
  | some c =>
    obtain ⟨hc, C, status, hC, hstatus⟩ := exists_of_findChild hfind
    simp only [hC]
    left
    cases w with
    | null => exact ⟨⟨_, rfl⟩, h.report hP hc hC hstatus (.inl rfl)⟩
    | bad => exact absurd rfl (hok P hP (by simp [hfind]))
    | good => exact ⟨⟨_, rfl⟩, h.report hP hc hC hstatus (.inr (by simp [hstatus]))⟩

theorem Sound.step (h : s.Sound) {e : Event} (hok : s.Kept e) (hs : s.step e = some s') :
    s'.Sound := by
  cases e with
  | fork p c pid =>
    obtain ⟨P, hP, hs⟩ := bind_eq_some_iff.mp hs
    obtain ⟨⟨hrun, hc, hreports⟩, hs⟩ := ite_none_right_eq_some.mp hs
    cases hs
    exact h.fork hP hrun hc hreports pid
  | exit p status =>
    obtain ⟨P, hP, hs⟩ := bind_eq_some_iff.mp hs
    obtain ⟨hrun, hs⟩ := ite_none_right_eq_some.mp hs
    cases hs
    exact h.exit hP (hok P hP) hrun status
  | wait4 p pid w =>
    obtain ⟨P, hP, hs⟩ := bind_eq_some_iff.mp hs
    obtain ⟨hrun, hs⟩ := ite_none_right_eq_some.mp hs
    cases hs
    obtain ⟨-, hsound⟩ | heq := h.sysWait4 hP hok
    · exact hsound
    · rw [heq]
      exact h

def init : State := ⟨fun p => if p = 1 then some ⟨1, none, [], none⟩ else none, fun _ => []⟩

theorem sound_init : init.Sound := by
  constructor <;> grind [init]

def Waitable (s : State) (c : ℕ) : Prop :=
  ∃ C q Q, s.proc c = some C ∧ C.parent = some q ∧ s.proc q = some Q ∧ Q.exited = none ∧
    c ∈ Q.children

/-- A child that exited waits for its report or has had exactly one; a call with an error changes
nothing. -/
theorem reaches_reported (hs : Run.Reaches (fun s e s' => s.step e = some s') Kept init s) :
    (∀ c C status, s.proc c = some C → C.parent ≠ none → C.exited = some status →
      s.Waitable c ∧ s.reports c = [] ∨ s.Reported c C status) ∧
    ∀ p P pid w, s.proc p = some P → s.Kept (.wait4 p pid w) →
      (s.sysWait4 p P pid w).1 = .echild ∨ (s.sysWait4 p P pid w).1 = .efault →
      (s.sysWait4 p P pid w).2 = s := by
  have h : s.Sound := hs.invariant (fun _ _ _ h hok hstep => h.step hok hstep) sound_init
  constructor
  · intro c C status hC hparent hstatus
    obtain ⟨q, hq⟩ := ne_none_iff_exists'.mp hparent
    obtain ⟨Q, hQ, ⟨hmem, hnone⟩ | ⟨-, status', hstatus', hreported⟩⟩ := h.kept c C q hC hq
    · left
      have hrun : Q.exited = none := by
        by_contra hexit
        simp [h.running q Q hQ hexit] at hmem
      exact ⟨⟨C, q, Q, hC, hq, hQ, hrun, hmem⟩, hnone⟩
    · right
      cases hstatus.symm.trans hstatus'
      exact hreported
  · intro p P pid w hP hok herr
    obtain ⟨⟨child, hchild⟩, -⟩ | heq := h.sysWait4 hP hok
    · simp [hchild] at herr
    · exact heq

theorem reaches_reported_child : ∃ (s : State) (C : Proc), s.proc 2 = some C ∧
    s.reports 2 = [⟨2, some 0x700⟩] ∧ (s.Waitable 2 ∧ s.reports 2 = [] ∨ s.Reported 2 C 7) := by
  obtain ⟨s, hs, heq⟩ : ∃ s ∈ [Event.fork 1 2 2, .exit 2 7, .wait4 1 (-1) .good].foldlM
      (fun (s : State) e => if s.Kept e then s.step e else none) init,
      s.proc 2 = some ⟨2, some 1, [], some 7⟩ ∧ s.reports 2 = [⟨2, some 0x700⟩] := by
    decide +kernel
  exact ⟨s, _, heq.1, heq.2,
    (reaches_reported (Run.reaches_of_guarded hs)).1 2 _ 7 heq.1 (by simp) rfl⟩

/-- With a bad status pointer the zombie is gone and has no report. -/
theorem wait4_loses_status : ∃ s P s', [Event.fork 1 2 2, .exit 2 7].foldlM step init = some s ∧
    s.proc 1 = some P ∧ s.sysWait4 1 P (-1) .bad = (.efault, s') ∧ s.Waitable 2 ∧
    s'.reports 2 = [] ∧ ∀ q Q, s'.proc q = some Q → 2 ∉ Q.children := by
  refine ⟨_, _, _, rfl, rfl, rfl, ⟨_, 1, _, rfl, rfl, rfl, rfl, by decide⟩, rfl, ?_⟩
  intro q Q hQ
  simp only [set_proc, init] at hQ
  grind

end State

end Doppio.WaitStatus
