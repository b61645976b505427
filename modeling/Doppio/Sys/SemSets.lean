import Doppio.Lock.SleepLocks

/-! The semaphore sets of `kernel/sys/sys_sem.c`. A call looks its set up under the global lock and
works on the slot in later sections under the lock of the set; a removed set leaves its slot to the
next `sys_semget`. One step is one section. -/
namespace Doppio
open Function Option

def maxSemSets : ℕ := 32
def maxSemsPerSet : ℕ := 32

inductive SemCommand where
  | getval (semnum : ℤ)
  | setval (semnum : ℤ) (arg : BitVec 64)
  | rmid
  deriving DecidableEq

inductive SemWork where
  | semop (sops : List SemBuf)
  | semctl (cmd : SemCommand)

/-- A call between look-up and return: its identifier, the slot found, and the number of the
creation of the set there. -/
structure SemCall where
  semid : ℤ
  slot : Fin maxSemSets
  birth : ℕ
  work : SemWork

structure SemTable (τ : Type*) where
  set : Fin maxSemSets → SemSet
  key : Fin maxSemSets → ℤ
  nextSemid : BitVec 32
  /-- the wait queue of each slot -/
  queue : Fin maxSemSets → List τ
  /-- the call that a thread is in -/
  call : τ → Option SemCall
  /-- the value of its last call -/
  result : τ → ℤ
  /-- the creations so far, and that of the set in a slot -/
  births : ℕ
  birth : Fin maxSemSets → ℕ

namespace SemTable
variable {τ : Type*}

def ipcPrivate : ℤ := 0
def ipcCreat : BitVec 32 := 0o1000
def ipcExcl : BitVec 32 := 0o2000

section
variable (s : SemTable τ)

def freeSlot : Option (Fin maxSemSets) :=
  (List.finRange maxSemSets).find? fun i => !(s.set i).active

def lookup (semid : ℤ) : Option (Fin maxSemSets) :=
  (List.finRange maxSemSets).find? fun i => (s.set i).active && (s.set i).id == semid

variable (i : Fin maxSemSets)

/-- The end of `sys_semget`: the zeroed slot becomes a new set. -/
def create (key : ℤ) (nsems : ℕ) : SemTable τ :=
  { s with
    set := update s.set i ⟨s.nextSemid.toInt, true, nsems, fun _ => 0⟩
    key := update s.key i key
    nextSemid := s.nextSemid + 1
    queue := update s.queue i []
    births := s.births + 1
    birth := update s.birth i s.births }

def setSet (set : SemSet) : SemTable τ :=
  { s with set := update s.set i set }

def wakeAll : SemTable τ :=
  { s with queue := update s.queue i [] }

end

variable [DecidableEq τ]

section
variable (s : SemTable τ)

def ret (t : τ) (v : ℤ) : SemTable τ :=
  { s with call := update s.call t none, result := update s.result t v }

def begin (t : τ) (c : SemCall) : SemTable τ :=
  { s with call := update s.call t (some c) }

/-- `sys_semget`; errors: `EINVAL`, `EEXIST`, `ENOENT`, `ENOMEM`. -/
def semget (t : τ) (key nsems : ℤ) (semflg : BitVec 32) : SemTable τ :=
  if nsems < 0 ∨ maxSemsPerSet < nsems then s.ret t (-22)
  else
    let found := if key = ipcPrivate then none
      else (List.finRange maxSemSets).find? fun i => (s.set i).active && s.key i == key
    match found with
    | some i =>
      if semflg &&& ipcCreat ≠ 0 ∧ semflg &&& ipcExcl ≠ 0 then s.ret t (-17)
      else if 0 < nsems ∧ (s.set i).nsems < nsems then s.ret t (-22)
      else s.ret t (s.set i).id
    | none =>
      if semflg &&& ipcCreat = 0 ∧ key ≠ ipcPrivate then s.ret t (-2)
      else if nsems ≤ 0 then s.ret t (-22)
      else
        match s.freeSlot with
        | none => s.ret t (-12)
        | some i => (s.create i key nsems.toNat).ret t s.nextSemid.toInt

/-- `sys_semop` or `sys_semctl` finds the set. -/
def find (t : τ) (semid : ℤ) (work : SemWork) : SemTable τ :=
  match s.lookup semid with
  | none => s.ret t (-22)
  | some i => s.begin t ⟨semid, i, s.birth i, work⟩

/-- `sys_semop` up to its loop; `copied`: the operations can be read. -/
def semop (s : SemTable τ) (t : τ) (semid : ℤ) (sops : List SemBuf) (copied : Bool) : SemTable τ :=
  if sops.length = 0 ∨ maxSemsPerSet < sops.length then s.ret t (-22)
  else if !copied then s.ret t (-14)
  else s.find t semid (.semop sops)

/-- One turn of the loop of `sys_semop`; errors: `EIDRM`, `EFBIG`, `EAGAIN`. -/
def semopTurn (t : τ) (i : Fin maxSemSets) (sops : List SemBuf) : SemTable τ :=
  if !(s.set i).active then s.ret t (-43)
  else
    match (s.set i).check sops with
    | .tooBig => s.ret t (-27)
    | .canSucceed => ((s.setSet i (sops.foldl SemSet.apply (s.set i))).wakeAll i).ret t 0
    | .mustWait =>
      if sops.any fun op => op.semFlg &&& ipcNowait != 0 then s.ret t (-11)
      else { s with queue := update s.queue i (s.queue i ++ [t]) }

/-- The section of `sys_semctl` under the lock of the set. -/
def semctlTurn (t : τ) (i : Fin maxSemSets) (cmd : SemCommand) : SemTable τ :=
  let set := s.set i
  if !set.active then s.ret t (-22)
  else
    match cmd with
    | .getval n =>
      if n < 0 ∨ set.nsems ≤ n then s.ret t (-22) else s.ret t (set.val n.toNat).toNat
    | .setval n arg =>
      if n < 0 ∨ set.nsems ≤ n then s.ret t (-22)
      else
        let val := update set.val n.toNat (arg.setWidth 16)
        ((s.setSet i { set with val := val }).wakeAll i).ret t 0
    | .rmid => ((s.setSet i { set with active := false }).wakeAll i).ret t 0

def turn (t : τ) (c : SemCall) : SemTable τ :=
  match c.work with
  | .semop sops => s.semopTurn t c.slot sops
  | .semctl cmd => s.semctlTurn t c.slot cmd

inductive Event (τ : Type*) where
  | semget (t : τ) (key nsems : ℤ) (semflg : BitVec 32)
  | semop (t : τ) (semid : ℤ) (sops : List SemBuf) (copied : Bool)
  | semctl (t : τ) (semid : ℤ) (cmd : SemCommand)
  | turn (t : τ)

def step : Event τ → Option (SemTable τ)
  | .semget t key nsems semflg =>
    if (s.call t).isNone then some (s.semget t key nsems semflg) else none
  | .semop t semid sops copied =>
    if (s.call t).isNone then some (s.semop t semid sops copied) else none
  | .semctl t semid cmd => if (s.call t).isNone then some (s.find t semid (.semctl cmd)) else none
  | .turn t =>
    match s.call t with
    | none => none
    | some c => if t ∈ s.queue c.slot then none else some (s.turn t c)

end

def boot : SemTable τ where
  set _ := ⟨0, false, 0, fun _ => 0⟩
  key _ := 0
  nextSemid := 1
  queue _ := []
  call _ := none
  result _ := 0
  births := 0
  birth _ := 0

variable {s s' : SemTable τ} {t : τ} {c : SemCall} {e : Event τ} {i : Fin maxSemSets}

section
variable (s : SemTable τ)

/-- The set that the call has found is still there. -/
def Holds (c : SemCall) : Prop :=
  (s.set c.slot).active = true ∧ s.birth c.slot = c.birth

/-- The error for a removed set: `EIDRM` or `EINVAL`. -/
def goneError : SemWork → ℤ
  | .semop _ => -43
  | .semctl _ => -22

/-- A section touches the set that the call has found and no other; if that is removed, it returns
an error and touches nothing. -/
structure Faithful (t : τ) (c : SemCall) (s' : SemTable τ) : Prop where
  others : ∀ j, j ≠ c.slot → s'.set j = s.set j
  gone : ¬ s.Holds c → s'.set = s.set ∧ s'.call t = none ∧ s'.result t = goneError c.work

/-- A `sys_semget` that creates a set takes no slot on which a call is in progress. -/
def Unused : Event τ → Prop
  | .semget t key nsems semflg => (s.semget t key nsems semflg).births ≠ s.births →
    ∀ t i, s.freeSlot = some i → (s.call t).map SemCall.slot ≠ some i
  | _ => True

/-- The calls have found the sets in their slots, and the threads that sleep do so on a set that is
there. -/
structure Sound : Prop where
  found : ∀ t c, s.call t = some c → s.birth c.slot = c.birth ∧
    ((s.set c.slot).active = true → (s.set c.slot).id = c.semid)
  asleep : ∀ i, ∀ t ∈ s.queue i, (s.set i).active = true

end

theorem foldl_apply_id (set : SemSet) (sops : List SemBuf) :
    (sops.foldl SemSet.apply set).id = set.id := by
  induction sops generalizing set with
  | nil => rfl
  | cons op sops ih => exact ih (set.apply op)

section
variable (h : s.Sound)
include h

theorem Sound.ret (t : τ) (v : ℤ) : (s.ret t v).Sound := by
  constructor
  · intro u c hc
    change update s.call t none u = some c at hc
    rw [update_apply] at hc
    split_ifs at hc
    exact h.found u c hc
  · exact h.asleep

omit [DecidableEq τ] in
theorem Sound.setWake {set : SemSet} (hid : set.id = (s.set i).id)
    (hactive : set.active = true → (s.set i).active = true) :
    ((s.setSet i set).wakeAll i).Sound := by
  have hset : ∀ j, ((s.setSet i set).wakeAll i).set j = if j = i then set else s.set j :=
    fun j => update_apply ..
  constructor
  · intro t c hc
    obtain ⟨hbirth, hsame⟩ := h.found t c hc
    refine ⟨hbirth, ?_⟩
    rw [hset]
    split_ifs with hi
    · intro ha
      rw [hid, ← hi]
      exact hsame (hi ▸ hactive ha)
    · exact hsame
  · intro j t ht
    change t ∈ update s.queue i [] j at ht
    rw [update_apply] at ht
    rw [hset]
    split_ifs at ht ⊢
    · exact absurd ht List.not_mem_nil
    · exact h.asleep j t ht

theorem Sound.semopTurn (t : τ) (i : Fin maxSemSets) (sops : List SemBuf) :
    (s.semopTurn t i sops).Sound := by
  rw [SemTable.semopTurn]
  by_cases ha : (s.set i).active = true
  · rw [if_neg (by simp [ha])]
    have hid := foldl_apply_id (s.set i) sops
    cases (s.set i).check sops with
    | tooBig => exact h.ret t _
    | canSucceed => exact (h.setWake hid fun _ => ha).ret t 0
    | mustWait =>
      split_ifs
      · exact h.ret t _
      · constructor
        · exact h.found
        · intro j u hu
          change u ∈ update s.queue i _ j at hu
          rw [update_apply] at hu
          split_ifs at hu with hj
          · exact hj ▸ ha
          · exact h.asleep j u hu
  · rw [if_pos (by simp [ha])]
    exact h.ret t _

theorem Sound.semctlTurn (t : τ) (i : Fin maxSemSets) (cmd : SemCommand) :
    (s.semctlTurn t i cmd).Sound := by
  unfold SemTable.semctlTurn
  by_cases ha : (s.set i).active = true
  · rw [if_neg (by simp [ha])]
    cases cmd with
    | getval n =>
      dsimp only
      split_ifs
      · exact h.ret t _
      · exact h.ret t _
    | setval n arg =>
      dsimp only
      split_ifs
      · exact h.ret t _
      · apply Sound.ret
        apply h.setWake
        · rfl
        · exact fun _ => ha
    | rmid =>
      apply Sound.ret
      apply h.setWake
      · rfl
      · intro hfalse
        cases hfalse
  · rw [if_pos (by simp [ha])]
    exact h.ret t _

theorem Sound.find (t : τ) (semid : ℤ) (work : SemWork) :
    (s.find t semid work).Sound := by
  rw [SemTable.find]
  cases hfind : s.lookup semid with
  | none => exact h.ret t _
  | some i =>
    have hi := List.find?_some hfind
    rw [Bool.and_eq_true, beq_iff_eq] at hi
    constructor
    · intro u c hc
      change update s.call t _ u = some c at hc
      rw [update_apply] at hc
      split_ifs at hc
      · cases hc
        exact ⟨rfl, fun _ => hi.2⟩
      · exact h.found u c hc
    · exact h.asleep

omit [DecidableEq τ] in
theorem Sound.create (hfree : ∀ t, (s.call t).map SemCall.slot ≠ some i) (key : ℤ)
    (nsems : ℕ) : (s.create i key nsems).Sound := by
  constructor
  · intro t c hc
    have hci : c.slot ≠ i := by
      intro heq
      apply hfree t
      rw [show s.call t = some c from hc, map_some, heq]
    obtain ⟨hbirth, hsame⟩ := h.found t c hc
    constructor
    · exact (update_of_ne hci ..).trans hbirth
    · have hset : (s.create i key nsems).set c.slot = s.set c.slot := update_of_ne hci ..
      rw [hset]
      exact hsame
  · intro j t ht
    have hji : j ≠ i := by
      intro heq
      have hnil : (s.create i key nsems).queue j = [] := by
        rw [heq]
        exact update_self ..
      rw [hnil] at ht
      exact absurd ht List.not_mem_nil
    have hset : (s.create i key nsems).set j = s.set j := update_of_ne hji ..
    have hqueue : (s.create i key nsems).queue j = s.queue j := update_of_ne hji ..
    rw [hqueue] at ht
    rw [hset]
    exact h.asleep j t ht

theorem Sound.semget {t : τ} {key nsems : ℤ} {semflg : BitVec 32}
    (hok : s.Unused (.semget t key nsems semflg)) : (s.semget t key nsems semflg).Sound := by
  unfold Unused at hok
  unfold SemTable.semget at hok ⊢
  dsimp only at hok ⊢
  by_cases hn : nsems < 0 ∨ (maxSemsPerSet : ℤ) < nsems
  · rw [if_pos hn]
    exact h.ret t _
  · rw [if_neg hn] at hok ⊢
    generalize (if key = ipcPrivate then none else _) = found at hok ⊢
    cases found with
    | some i =>
      dsimp only
      split_ifs <;> exact h.ret t _
    | none =>
      dsimp only at hok ⊢
      split_ifs at hok ⊢
      · exact h.ret t _
      · exact h.ret t _
      · cases hslot : s.freeSlot with
        | none => exact h.ret t _
        | some i =>
          rw [hslot] at hok
          exact (h.create (fun u => hok (Nat.succ_ne_self _) u i rfl) key _).ret t _

theorem Sound.step (hok : s.Unused e) (hs : s.step e = some s') : s'.Sound := by
  cases e with
  | semget t key nsems semflg =>
    obtain ⟨-, hs⟩ := ite_none_right_eq_some.mp hs
    cases hs
    exact h.semget hok
  | semop t semid sops copied =>
    obtain ⟨-, hs⟩ := ite_none_right_eq_some.mp hs
    rw [← some.inj hs, SemTable.semop]
    split_ifs
    · exact h.ret t _
    · exact h.ret t _
    · exact h.find t semid _
  | semctl t semid cmd =>
    obtain ⟨-, hs⟩ := ite_none_right_eq_some.mp hs
    cases hs
    exact h.find t semid _
  | turn t =>
    rw [SemTable.step] at hs
    cases hcall : s.call t with
    | none =>
      rw [hcall] at hs
      cases hs
    | some c =>
      rw [hcall] at hs
      dsimp only at hs
      split_ifs at hs
      rw [← some.inj hs, SemTable.turn]
      cases c.work with
      | semop sops => exact h.semopTurn t _ sops
      | semctl cmd => exact h.semctlTurn t _ cmd

end

theorem turn_others (s : SemTable τ) (t : τ) (c : SemCall) {j : Fin maxSemSets} (hj : j ≠ c.slot) :
    (s.turn t c).set j = s.set j := by
  have hwake : ∀ (set : SemSet) (v : ℤ),
      (((s.setSet c.slot set).wakeAll c.slot).ret t v).set j = s.set j :=
    fun set v => update_of_ne hj ..
  rw [SemTable.turn]
  cases c.work with
  | semop sops =>
    dsimp only
    unfold SemTable.semopTurn
    by_cases ha : (s.set c.slot).active = true
    · rw [if_neg (by simp [ha])]
      cases (s.set c.slot).check sops with
      | tooBig => rfl
      | canSucceed => exact hwake _ _
      | mustWait =>
        split_ifs <;> rfl
    · rw [if_pos (by simp [ha])]
      rfl
  | semctl cmd =>
    unfold SemTable.semctlTurn
    dsimp only
    split_ifs
    · rfl
    · cases cmd with
      | getval n =>
        dsimp only
        split_ifs <;> rfl
      | setval n arg =>
        dsimp only
        split_ifs
        · rfl
        · exact hwake _ _
      | rmid => exact hwake _ _

theorem turn_gone (s : SemTable τ) (t : τ) (c : SemCall) (h : (s.set c.slot).active = false) :
    s.turn t c = s.ret t (goneError c.work) := by
  rw [SemTable.turn]
  cases c.work with
  | semop sops => simp [SemTable.semopTurn, h, goneError]
  | semctl cmd => simp [SemTable.semctlTurn, h, goneError]

abbrev Reaches (ok : SemTable τ → Event τ → Prop) : SemTable τ → SemTable τ → Prop :=
  Run.Reaches (fun s e s' => s.step e = some s') ok

omit [DecidableEq τ] in
theorem sound_boot : (boot : SemTable τ).Sound := ⟨nofun, nofun⟩

theorem sound_of_reaches (h : Reaches Unused boot s) : s.Sound :=
  h.invariant (fun _ _ _ hI hok hs => Sound.step hI hok hs) sound_boot

/-- While no set is created in a slot on which a call is in progress, a call works on the set it was
made for: while it is there it has the call's identifier, and once it is removed the call does not
sleep, and its next section returns an error and touches nothing. -/
theorem reaches_faithful (h : Reaches Unused boot s) (hc : s.call t = some c) :
    (s.Holds c → (s.set c.slot).id = c.semid) ∧ (¬ s.Holds c → t ∉ s.queue c.slot) ∧
      ∀ s', s.step (.turn t) = some s' → s.Faithful t c s' := by
  have hsound := sound_of_reaches h
  obtain ⟨hbirth, hid⟩ := hsound.found t c hc
  have hgone : ¬ s.Holds c → (s.set c.slot).active = false := by
    intro hnot
    rw [← Bool.not_eq_true]
    exact fun ha => hnot ⟨ha, hbirth⟩
  refine ⟨fun hh => hid hh.1, fun hnot hmem => ?_, fun s' hs => ?_⟩
  · have ha := hsound.asleep c.slot t hmem
    rw [hgone hnot] at ha
    cases ha
  · rw [SemTable.step, hc] at hs
    dsimp only at hs
    split_ifs at hs
    cases hs
    constructor
    · exact fun j hj => turn_others s t c hj
    · intro hnot
      rw [turn_gone s t c (hgone hnot)]
      exact ⟨rfl, update_self .., update_self ..⟩

instance [Fintype τ] (s : SemTable τ) : DecidablePred s.Unused
  | .semget _ _ _ _ => inferInstanceAs (Decidable (_ → ∀ t i,
      s.freeSlot = some i → (s.call t).map SemCall.slot ≠ some i))
  | .semop _ _ _ _ => isTrue trivial
  | .semctl _ _ _ => isTrue trivial
  | .turn _ => isTrue trivial

/-- A set is made and found by `sys_semop`; another thread removes it. -/
def removal : List (Event Bool) :=
  [.semget false ipcPrivate 1 ipcCreat, .semop false 1 [⟨0, 1, 0⟩] true, .semctl true 1 .rmid,
    .turn true]

theorem reaches_faithful_removal : ∃ (s s' : SemTable Bool) (c : SemCall),
    Reaches Unused boot s ∧ s.call false = some c ∧ ¬ s.Holds c ∧
      s.step (.turn false) = some s' ∧ s.Faithful false c s' ∧ s'.result false = -43 := by
  have hrun : (removal.foldlM (fun (s : SemTable Bool) e => if s.Unused e then s.step e else none)
      boot).bind (fun s : SemTable Bool => (s.step (.turn false)).bind fun s' : SemTable Bool =>
        (s.call false).map fun c => ((s.set c.slot).active, s'.result false)) =
      some (false, -43) := by
    decide +kernel
  obtain ⟨s, hs, hrest⟩ := bind_eq_some_iff.mp hrun
  obtain ⟨s', hs', hrest⟩ := bind_eq_some_iff.mp hrest
  obtain ⟨c, hc, heq⟩ := map_eq_some_iff.mp hrest
  simp only [Prod.mk.injEq] at heq
  have hreach := Run.reaches_of_guarded hs
  have hfaithful := (reaches_faithful hreach hc).2.2 s' hs'
  refine ⟨s, s', c, hreach, hc, fun hh => ?_, hs', hfaithful, heq.2⟩
  rw [hh.1] at heq
  cases heq.1

/-- The slot of the removed set goes to a new one before the section of the call: the call with
identifier 1 adds to the set with identifier 2, and succeeds. -/
theorem semop_touches_new_set : ∃ (s s' : SemTable Bool) (c : SemCall),
    Reaches (fun _ _ => True) boot s ∧ s.call false = some c ∧ c.semid = 1 ∧
      s.step (.turn false) = some s' ∧ s'.result false = 0 ∧ (s.set c.slot).id = 2 ∧
      (s.set c.slot).val 0 = 0 ∧ (s'.set c.slot).val 0 = 1 ∧ ¬ s.Faithful false c s' := by
  have hrun : ((removal ++ [Event.semget true ipcPrivate 1 ipcCreat]).foldlM
      (fun (s : SemTable Bool) e => s.step e) boot).bind (fun s : SemTable Bool =>
        (s.step (.turn false)).bind fun s' : SemTable Bool => (s.call false).map fun c =>
          (c.semid, s'.result false, (s.set c.slot).id, (s.set c.slot).val 0,
            (s'.set c.slot).val 0, decide (s.birth c.slot = c.birth))) =
      some (1, 0, 2, 0, 1, false) := by
    decide +kernel
  obtain ⟨s, hs, hrest⟩ := bind_eq_some_iff.mp hrun
  obtain ⟨s', hs', hrest⟩ := bind_eq_some_iff.mp hrest
  obtain ⟨c, hc, heq⟩ := map_eq_some_iff.mp hrest
  simp only [Prod.mk.injEq, decide_eq_false_iff_not] at heq
  obtain ⟨hid, hres, hnew, hval, hval', hbirth⟩ := heq
  refine ⟨s, s', c, Run.reaches_of_foldlM hs, hc, hid, hs', hres, hnew, hval, hval', fun hf => ?_⟩
  obtain ⟨hsame, -⟩ := hf.gone fun hh => hbirth hh.2
  rw [hsame, hval] at hval'
  cases hval'

end SemTable
end Doppio
