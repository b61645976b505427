import Mathlib.Data.BitVec

/-! The ids of a process and its descendants (`kernel/sys/sys_getid.c`, and `sys_fork` and
`sys_clone` of `kernel/sys/sys_proc.c`). -/
namespace Doppio.Credentials

/-- The real, the effective and the saved id. -/
structure Ids where
  real : BitVec 32
  eff : BitVec 32
  saved : BitVec 32
  deriving DecidableEq

structure Cred where
  uids : Ids
  gids : Ids
  deriving DecidableEq

/-- An argument other than -1 replaces the id. -/
def chosen (arg old : BitVec 32) : BitVec 32 := if arg ≠ -1 then arg else old

namespace Ids
variable (i : Ids)

/-- `uid_may_set` and `gid_may_set`. -/
def maySet (val : BitVec 32) : Bool := val = i.real ∨ val = i.eff ∨ val = i.saved

/-- `sys_setuid` and `sys_setgid`; an error changes nothing. -/
def set (privileged : Bool) (id : BitVec 32) : Ids :=
  if privileged then ⟨id, id, id⟩
  else if id = i.real ∨ id = i.saved then { i with eff := id }
  else i

/-- `sys_setresuid` and `sys_setresgid`. -/
def setRes (privileged : Bool) (r e s : BitVec 32) : Ids :=
  if ¬privileged ∧ ((r ≠ -1 ∧ ¬i.maySet r) ∨ (e ≠ -1 ∧ ¬i.maySet e) ∨ (s ≠ -1 ∧ ¬i.maySet s)) then i
  else ⟨chosen r i.real, chosen e i.eff, chosen s i.saved⟩

def values : Set (BitVec 32) := {i.real, i.eff, i.saved}

end Ids

inductive Call where
  | setuid (uid : BitVec 32)
  | setgid (gid : BitVec 32)
  | setresuid (ruid euid suid : BitVec 32)
  | setresgid (rgid egid sgid : BitVec 32)
  | setreuid (ruid euid : BitVec 32)
  | setregid (rgid egid : BitVec 32)

def Cred.call (c : Cred) (call : Call) : Cred :=
  let privileged : Bool := c.uids.eff = 0
  match call with
  | .setuid uid => { c with uids := c.uids.set privileged uid }
  | .setgid gid => { c with gids := c.gids.set privileged gid }
  | .setresuid r e s => { c with uids := c.uids.setRes privileged r e s }
  | .setresgid r e s => { c with gids := c.gids.setRes privileged r e s }
  | .setreuid r e => { c with uids := c.uids.setRes privileged r e (-1) }
  | .setregid r e => { c with gids := c.gids.setRes privileged r e (-1) }

inductive Event where
  | call (p : ℕ) (call : Call)
  /-- `sys_fork`, and `sys_clone` without `CLONE_THREAD` -/
  | fork (p : ℕ)

/-- The processes in the order they were made; the first is the ancestor of all. -/
def step (s : List Cred) : Event → List Cred
  | .call p call => s.modify p (·.call call)
  | .fork p => s ++ s[p]?.toList

/-- No ids but those of `c₀`. -/
def Cred.Within (c₀ c : Cred) : Prop :=
  c.uids.values ⊆ c₀.uids.values ∧ c.gids.values ⊆ c₀.gids.values

namespace Ids
variable {i : Ids}

theorem mem_values_of_maySet {val : BitVec 32} (h : i.maySet val = true) : val ∈ i.values := by
  simpa [maySet, values] using h

theorem values_subset {r e s : BitVec 32} {S : Set (BitVec 32)} (hr : r ∈ S) (he : e ∈ S)
    (hs : s ∈ S) : (Ids.mk r e s).values ⊆ S := by
  rintro val (rfl | rfl | rfl)
  · exact hr
  · exact he
  · exact hs

theorem values_set (i : Ids) (id : BitVec 32) : (i.set false id).values ⊆ i.values := by
  rw [set, if_neg Bool.false_ne_true]
  split_ifs with hid
  · refine values_subset (by simp [values]) ?_ (by simp [values])
    rcases hid with rfl | rfl <;> simp [values]
  · exact subset_rfl

theorem chosen_mem {arg old : BitVec 32} (hold : old ∈ i.values)
    (harg : ¬(arg ≠ -1 ∧ ¬i.maySet arg = true)) : chosen arg old ∈ i.values := by
  unfold chosen
  split_ifs with hne
  · exact mem_values_of_maySet (not_not.mp fun hset => harg ⟨hne, hset⟩)
  · exact hold

theorem values_setRes (i : Ids) (r e s : BitVec 32) : (i.setRes false r e s).values ⊆ i.values := by
  simp only [setRes, Bool.false_eq_true, not_false_eq_true, true_and]
  split_ifs with hbad
  · exact subset_rfl
  · obtain ⟨hr, hbad⟩ := not_or.mp hbad
    obtain ⟨he, hs⟩ := not_or.mp hbad
    exact values_subset (chosen_mem (by simp [values]) hr) (chosen_mem (by simp [values]) he)
      (chosen_mem (by simp [values]) hs)

end Ids

variable {c₀ c : Cred}

/-- Without privilege no call brings in a new id. -/
theorem within_call (c : Cred) (h : c.uids.eff ≠ 0) (call : Call) : c.Within (c.call call) := by
  have hpriv : decide (c.uids.eff = 0) = false := decide_eq_false h
  cases call <;> simp only [Cred.call, hpriv]
  case setuid uid => exact ⟨c.uids.values_set uid, subset_rfl⟩
  case setgid gid => exact ⟨subset_rfl, c.gids.values_set gid⟩
  case setresuid r e s => exact ⟨c.uids.values_setRes r e s, subset_rfl⟩
  case setresgid r e s => exact ⟨subset_rfl, c.gids.values_setRes r e s⟩
  case setreuid r e => exact ⟨c.uids.values_setRes r e (-1), subset_rfl⟩
  case setregid r e => exact ⟨subset_rfl, c.gids.values_setRes r e (-1)⟩

theorem Cred.Within.call (h : c₀.Within c) (h₀ : 0 ∉ c₀.uids.values) (call : Call) :
    c₀.Within (c.call call) := by
  have heff : c.uids.eff ≠ 0 := fun h0 => h₀ (h0 ▸ h.1 (by simp [Ids.values]))
  obtain ⟨hu, hg⟩ := within_call c heff call
  exact ⟨hu.trans h.1, hg.trans h.2⟩

theorem within_step {s : List Cred} (h₀ : 0 ∉ c₀.uids.values) (h : ∀ c ∈ s, c₀.Within c)
    (e : Event) : ∀ c ∈ step s e, c₀.Within c := by
  cases e with
  | call p call =>
    intro c hc
    obtain ⟨i, hi⟩ := List.mem_iff_getElem?.mp hc
    rw [step, List.getElem?_modify] at hi
    obtain ⟨d, hd, rfl⟩ := Option.map_eq_some_iff.mp hi
    have hold := h d (List.mem_of_getElem? hd)
    split_ifs
    · exact hold.call h₀ call
    · exact hold
  | fork p =>
    intro c hc
    rcases List.mem_append.mp hc with hc | hc
    · exact h c hc
    · exact h c (List.mem_of_getElem? (Option.mem_toList.mp hc))

/-- A process whose uids are not 0 and its descendants never get an id that it has not had. -/
theorem run_within (c₀ : Cred) (h₀ : 0 ∉ c₀.uids.values) (events : List Event) :
    ∀ c ∈ events.foldl step [c₀], c₀.Within c := by
  have hrun (s : List Cred) (hs : ∀ c ∈ s, c₀.Within c) :
      ∀ c ∈ events.foldl step s, c₀.Within c := by
    induction events generalizing s with
    | nil => exact hs
    | cons e rest ih => exact ih (step s e) (within_step h₀ hs e)
  exact hrun [c₀] fun c hc => by simp_all [Cred.Within]

theorem run_within_child : Cred.Within ⟨⟨5, 6, 7⟩, ⟨0, 1, 2⟩⟩ ⟨⟨7, 6, 5⟩, ⟨0, 1, 2⟩⟩ :=
  run_within _ (by simp [Ids.values]) [.fork 0, .call 1 (.setresuid 7 (-1) 5)] _ (by decide)

end Doppio.Credentials
