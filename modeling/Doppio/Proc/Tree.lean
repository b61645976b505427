import Doppio.Library.Run
import Mathlib.Data.List.Nodup

/-! The tree of processes: `sys_fork`, `sys_clone`, `sys_exit` and `sys_wait4` of
`kernel/sys/sys_proc.c` with `find_proc` and `proc_put` of `kernel/proc/proc.c`, call by call. A
process is the address of its `struct proc`. -/
namespace Doppio
open Option

/-- `struct proc`, as far as the tree goes. -/
structure Proc where
  parent : Option ℕ
  children : List ℕ
  /-- the length of `p_threads`; a process without threads is a zombie -/
  threads : ℕ
  /-- assumed below `2 ^ 31` -/
  refcnt : ℕ
  /-- the references that `find_proc` has given out -/
  held : ℕ
  /-- taken off the list of its parent by `sys_wait4` -/
  collected : Bool
  deriving DecidableEq

structure ProcTree where
  proc : ℕ → Option Proc

namespace ProcTree

section
variable (s : ProcTree)

def set (p : ℕ) (P : Option Proc) : ProcTree := ⟨Function.update s.proc p P⟩

/-- The end of `sys_fork`, or `sys_clone` without `CLONE_THREAD`. -/
def link (p : ℕ) (P : Proc) (c : ℕ) : ProcTree :=
  (s.set c (some ⟨some p, [], 1, 1, 0, false⟩)).set p (some { P with children := P.children ++ [c] })

/-- The first zombie among the children; `none` if a freed process is listed. -/
def findZombie (s : ProcTree) (pid : Option ℕ) : List ℕ → Option (Option ℕ)
  | [] => some none
  | c :: cs =>
    match s.proc c with
    | none => none
    | some C =>
      if (pid = none ∨ pid = some c) ∧ C.threads = 0 then some (some c) else s.findZombie pid cs

def procPut (p : ℕ) (P : Proc) : ProcTree :=
  s.set p (if P.refcnt = 1 then none else some { P with refcnt := P.refcnt - 1 })

inductive Event where
  /-- a new process at `c`; the call may fail afterwards -/
  | fork (p c : ℕ) (ok : Bool)
  /-- `sys_clone` with `CLONE_THREAD` -/
  | cloneThread (p : ℕ)
  | exit (p : ℕ)
  /-- `pid` is `none` for any child -/
  | wait4 (p : ℕ) (pid : Option ℕ)
  | findProc (p : ℕ)
  | put (p : ℕ)

/-- `sys_exit` of the last thread, which writes to the parent. -/
def exitLast (p : ℕ) (P : Proc) : Option ProcTree :=
  match P.parent with
  | none => some (s.set p (some { P with threads := 0 }))
  | some q => if (s.proc q).isSome then some (s.set p (some { P with threads := 0 })) else none

/-- One call; `none` if it meets a freed process or cannot be made. -/
def step : Event → Option ProcTree
  | .fork p c ok => do
    let P ← s.proc p
    if P.threads ≠ 0 ∧ s.proc c = none then some (if ok then s.link p P c else s) else none
  | .cloneThread p => do
    let P ← s.proc p
    if P.threads ≠ 0 then some (s.set p (some { P with threads := P.threads + 1 })) else none
  | .exit p => do
    let P ← s.proc p
    if P.threads = 0 then none
    else if P.threads = 1 then s.exitLast p P
    else some (s.set p (some { P with threads := P.threads - 1 }))
  | .wait4 p pid => do
    let P ← s.proc p
    if P.threads = 0 then none
    else
      match ← s.findZombie pid P.children with
      | none => some s
      | some c =>
        let C ← s.proc c
        some ((s.set p (some { P with children := P.children.erase c })).procPut c
          { C with collected := true })
  | .findProc p => do
    let P ← s.proc p
    some (s.set p (some { P with refcnt := P.refcnt + 1, held := P.held + 1 }))
  | .put p => do
    let P ← s.proc p
    if P.held = 0 then none else some (s.procPut p { P with held := P.held - 1 })

def boot (roots : List ℕ) : ProcTree :=
  ⟨fun p => if p ∈ roots then some ⟨none, [], 1, 1, 0, false⟩ else none⟩

/-- The last thread exits only in a process with a parent and no children. -/
def Childless : Event → Prop
  | .exit p => ∀ P, s.proc p = some P → P.threads = 1 → P.parent ≠ none ∧ P.children = []
  | _ => True

def Collects (q p : ℕ) : Prop :=
  ∃ Q, s.proc q = some Q ∧ Q.threads ≠ 0 ∧ p ∈ Q.children

/-- The parent of every uncollected process has threads and has it among its children, and an
uncollected zombie has a parent. -/
structure Rooted : Prop where
  parent : ∀ p P, s.proc p = some P → P.collected = false → ∀ q, P.parent = some q → s.Collects q p
  zombie : ∀ p P, s.proc p = some P → P.collected = false → P.threads = 0 → ∃ q, s.Collects q p

/-- What a process keeps on its own. -/
structure Fit (P : Proc) : Prop where
  orphan : P.threads = 0 → P.parent ≠ none ∧ P.children = []
  nodup : P.children.Nodup
  refs : P.refcnt = P.held + if P.collected then 0 else 1
  dead : P.collected = true → P.threads = 0

def Child (p c : ℕ) : Prop :=
  ∃ C, s.proc c = some C ∧ C.parent = some p ∧ C.collected = false

structure Sound : Prop where
  parent : ∀ p P, s.proc p = some P → P.collected = false → ∀ q, P.parent = some q → s.Collects q p
  children : ∀ p P, s.proc p = some P → ∀ c ∈ P.children, s.Child p c
  fit : ∀ p P, s.proc p = some P → Fit P

end

variable {s s' : ProcTree} {p c : ℕ} {P P' : Proc}

theorem proc_set (s : ProcTree) (p : ℕ) (P : Option Proc) (q : ℕ) :
    (s.set p P).proc q = if q = p then P else s.proc q :=
  Function.update_apply ..

theorem set_cases {X : Option Proc} {q : ℕ} {Q : Proc} (h : (s.set p X).proc q = some Q) :
    q = p ∧ X = some Q ∨ q ≠ p ∧ s.proc q = some Q := by
  rw [proc_set] at h
  split_ifs at h with hq
  · exact .inl ⟨hq, h⟩
  · exact .inr ⟨hq, h⟩

theorem findZombie_spec {cs : List ℕ} (pid : Option ℕ)
    (h : ∀ c ∈ cs, ∃ C, s.proc c = some C) : s.findZombie pid cs = some none ∨
      ∃ c ∈ cs, ∃ C, s.proc c = some C ∧ C.threads = 0 ∧ s.findZombie pid cs = some (some c) := by
  induction cs with
  | nil => exact .inl rfl
  | cons c cs ih =>
    obtain ⟨C, hC⟩ := h c List.mem_cons_self
    have hrest := ih fun d hd => h d (List.mem_cons_of_mem c hd)
    rw [findZombie, hC]
    dsimp only
    split_ifs with hz
    · exact .inr ⟨c, List.mem_cons_self, C, hC, hz.2, rfl⟩
    · exact hrest.imp_right fun ⟨d, hd, D, hD⟩ => ⟨d, List.mem_cons_of_mem c hd, D, hD⟩

section
variable (h : s.Sound)
include h

section
variable (hp : s.proc p = some P)
include hp

/-- A process changes, but not its place in the tree. -/
theorem Sound.modify (hparent : P'.parent = P.parent)
    (hchildren : P'.children = P.children) (hcollected : P'.collected = P.collected)
    (hthreads : P'.threads = 0 → P.children = []) (hfit : Fit P') : (s.set p (some P')).Sound := by
  refine ⟨fun q Q hq hnot r hr => ?_, fun q Q hq d hd => ?_, fun q Q hq => ?_⟩ <;>
    rcases set_cases hq with ⟨rfl, ⟨⟩⟩ | ⟨-, hq⟩
  · obtain ⟨R, hR, hrest⟩ := h.parent q P hp (hcollected ▸ hnot) r (hparent ▸ hr)
    grind [Collects, proc_set]
  · obtain ⟨R, hR, hrest⟩ := h.parent q Q hq hnot r hr
    grind [Collects, proc_set]
  · obtain ⟨D, hD, hrest⟩ := h.children q P hp d (hchildren ▸ hd)
    grind [Child, proc_set]
  · obtain ⟨D, hD, hrest⟩ := h.children q Q hq d hd
    grind [Child, proc_set]
  · exact hfit
  · exact h.fit q Q hq

theorem Sound.free (hcollected : P.collected = true) : (s.set p none).Sound := by
  refine ⟨fun q Q hq hnot r hr => ?_, fun q Q hq d hd => ?_, fun q Q hq => ?_⟩ <;>
    rcases set_cases hq with ⟨rfl, ⟨⟩⟩ | ⟨-, hq⟩
  · obtain ⟨R, hR, hrun, hmem⟩ := h.parent q Q hq hnot r hr
    have hrp : r ≠ p := by
      rintro rfl
      cases hR.symm.trans hp
      exact hrun ((h.fit r P hp).dead hcollected)
    exact ⟨R, by rwa [proc_set, if_neg hrp], hrun, hmem⟩
  · obtain ⟨D, hD, hparent, hnot⟩ := h.children q Q hq d hd
    have hdp : d ≠ p := by
      rintro rfl
      cases hD.symm.trans hp
      simp [hcollected] at hnot
    exact ⟨D, by rwa [proc_set, if_neg hdp], hparent, hnot⟩
  · exact h.fit q Q hq

theorem Sound.link (hrun : P.threads ≠ 0) (hc : s.proc c = none) : (s.link p P c).Sound := by
  refine ⟨fun q Q hq hnot r hr => ?_, fun q Q hq d hd => ?_, fun q Q hq => ?_⟩ <;>
    rcases set_cases hq with ⟨rfl, ⟨⟩⟩ | ⟨hqp, hq⟩
  · obtain ⟨R, hR, hrest⟩ := h.parent q P hp hnot r hr
    grind [Collects, ProcTree.link, proc_set]
  · rcases set_cases hq with ⟨rfl, ⟨⟩⟩ | ⟨-, hq⟩
    · cases hr
      exact ⟨_, Function.update_self .., hrun, List.mem_append_right _ (List.mem_singleton_self q)⟩
    · obtain ⟨R, hR, hrest⟩ := h.parent q Q hq hnot r hr
      grind [Collects, ProcTree.link, proc_set]
  · rcases List.mem_append.mp hd with hd | hd
    · obtain ⟨D, hD, hrest⟩ := h.children q P hp d hd
      grind [Child, ProcTree.link, proc_set]
    · grind [Child, ProcTree.link, proc_set]
  · rcases set_cases hq with ⟨rfl, ⟨⟩⟩ | ⟨-, hq⟩
    · cases hd
    · obtain ⟨D, hD, hrest⟩ := h.children q Q hq d hd
      grind [Child, ProcTree.link, proc_set]
  · refine { h.fit q P hp with orphan := (absurd · hrun), nodup := ?_ }
    refine (h.fit q P hp).nodup.append (List.nodup_singleton c) fun d hd hdc => ?_
    obtain ⟨C, hC, -⟩ := h.children q P hp d hd
    simp [List.mem_singleton.mp hdc, hc] at hC
  · rcases set_cases hq with ⟨rfl, ⟨⟩⟩ | ⟨-, hq⟩
    · exact ⟨nofun, List.nodup_nil, rfl, nofun⟩
    · exact h.fit q Q hq

theorem Sound.collect {C : Proc} (hrun : P.threads ≠ 0)
    (hc : c ∈ P.children) (hC : s.proc c = some C) (hzero : C.threads = 0) :
    ((s.set p (some { P with children := P.children.erase c })).procPut c
      { C with collected := true }).Sound := by
  have hfit := h.fit c C hC
  have hnodup := (h.fit p P hp).nodup
  have hchild := h.children p P hp c hc
  have hX {Q : Proc} (hq : (if C.refcnt = 1 then none else
      some { C with collected := true, refcnt := C.refcnt - 1 }) = some Q) :
      Q = { C with collected := true, refcnt := C.refcnt - 1 } := by
    split_ifs at hq
    exact (some.inj hq).symm
  refine ⟨fun q Q hq hnot r hr => ?_, fun q Q hq d hd => ?_, fun q Q hq => ?_⟩ <;>
    rcases set_cases hq with ⟨hqc, hq⟩ | ⟨hqc, hq⟩
  · rw [hX hq] at hnot
    cases hnot
  · rcases set_cases hq with ⟨rfl, ⟨⟩⟩ | ⟨-, hq⟩
    · obtain ⟨R, hR, hrest⟩ := h.parent q P hp hnot r hr
      grind [Collects, procPut, proc_set]
    · obtain ⟨R, hR, hrest⟩ := h.parent q Q hq hnot r hr
      grind [Collects, procPut, proc_set]
  · rw [hX hq, (hfit.orphan hzero).2] at hd
    cases hd
  · rcases set_cases hq with ⟨rfl, ⟨⟩⟩ | ⟨hqp, hq⟩
    · -- the list has the zombie once, so it is not in what is left
      obtain ⟨hdc, hd⟩ := hnodup.mem_erase_iff.mp hd
      obtain ⟨D, hD, hrest⟩ := h.children q P hp d hd
      grind [Child, procPut, proc_set]
    · obtain ⟨D, hD, hrest⟩ := h.children q Q hq d hd
      grind [Child, procPut, proc_set]
  · obtain ⟨C', hC', -, hnot⟩ := hchild
    cases hC.symm.trans hC'
    have hrefs := hfit.refs
    rw [hnot] at hrefs
    rw [hX hq]
    exact ⟨hfit.orphan, hfit.nodup, by simp at hrefs ⊢; omega, fun _ => hzero⟩
  · rcases set_cases hq with ⟨rfl, ⟨⟩⟩ | ⟨-, hq⟩
    · exact { h.fit q P hp with orphan := (absurd · hrun), nodup := hnodup.erase c }
    · exact h.fit q Q hq

theorem Sound.put (hheld : P.held ≠ 0) :
    (s.procPut p { P with held := P.held - 1 }).Sound := by
  have hfit := h.fit p P hp
  have hrefs := hfit.refs
  unfold procPut
  dsimp only
  split_ifs with hlast
  · apply h.free hp
    by_contra hnot
    rw [if_neg hnot] at hrefs
    omega
  · exact h.modify hp rfl rfl rfl (fun hz => (hfit.orphan hz).2)
      { hfit with refs := by dsimp only; omega }

theorem Sound.exitLast (hrun : P.threads ≠ 0) :
    s.exitLast p P = some (s.set p (some { P with threads := 0 })) := by
  have hnot : P.collected = false := by
    rw [← Bool.not_eq_true]
    exact fun hc => hrun ((h.fit p P hp).dead hc)
  unfold ProcTree.exitLast
  cases hq : P.parent with
  | none => rfl
  | some q =>
    obtain ⟨Q, hQ, -⟩ := h.parent p P hp hnot q hq
    simp [hQ]

end

theorem Sound.step {e : Event} (hok : s.Childless e) (hs : s.step e = some s') :
    s'.Sound := by
  cases e with
  | fork p c ok =>
    obtain ⟨P, hp, hs⟩ := bind_eq_some_iff.mp hs
    obtain ⟨⟨hrun, hc⟩, hs⟩ := ite_none_right_eq_some.mp hs
    cases hs
    cases ok with
    | true => exact h.link hp hrun hc
    | false => exact h
  | cloneThread p =>
    obtain ⟨P, hp, hs⟩ := bind_eq_some_iff.mp hs
    obtain ⟨hrun, hs⟩ := ite_none_right_eq_some.mp hs
    cases hs
    have hfit := h.fit p P hp
    exact h.modify hp rfl rfl rfl nofun
      { hfit with orphan := nofun, dead := fun hc => absurd (hfit.dead hc) hrun }
  | exit p =>
    obtain ⟨P, hp, hs⟩ := bind_eq_some_iff.mp hs
    have hfit := h.fit p P hp
    split_ifs at hs with hzero hone
    · rw [h.exitLast hp hzero] at hs
      cases hs
      have hend := hok P hp hone
      exact h.modify hp rfl rfl rfl (fun _ => hend.2)
        { hfit with orphan := fun _ => hend, dead := fun _ => rfl }
    · cases hs
      have hmore : P.threads - 1 ≠ 0 := by omega
      exact h.modify hp rfl rfl rfl (absurd · hmore)
        { hfit with orphan := (absurd · hmore), dead := fun hc => absurd (hfit.dead hc) hzero }
  | wait4 p pid =>
    obtain ⟨P, hp, hs⟩ := bind_eq_some_iff.mp hs
    split_ifs at hs with hzero
    have hkids : ∀ c ∈ P.children, ∃ C, s.proc c = some C := fun c hc =>
      (h.children p P hp c hc).imp fun _ hC => hC.1
    rcases findZombie_spec pid hkids with hnone | ⟨c, hc, C, hC, hdead, hfound⟩
    · rw [hnone] at hs
      cases hs
      exact h
    · rw [hfound, bind_eq_bind, bind_some] at hs
      dsimp only at hs
      rw [hC] at hs
      cases hs
      exact h.collect hp hzero hc hC hdead
  | findProc p =>
    obtain ⟨P, hp, hs⟩ := bind_eq_some_iff.mp hs
    have hfit := h.fit p P hp
    have hrefs := hfit.refs
    cases hs
    exact h.modify hp rfl rfl rfl (fun hz => (hfit.orphan hz).2)
      { hfit with refs := by dsimp only; omega }
  | put p =>
    obtain ⟨P, hp, hs⟩ := bind_eq_some_iff.mp hs
    split_ifs at hs with hheld
    cases hs
    exact h.put hp hheld

end

abbrev Reaches (ok : ProcTree → Event → Prop) : ProcTree → ProcTree → Prop :=
  Run.Reaches (fun s e s' => s.step e = some s') ok

theorem sound_boot (roots : List ℕ) : (boot roots).Sound := by
  have hroot : ∀ p P, (boot roots).proc p = some P → P = ⟨none, [], 1, 1, 0, false⟩ := by
    intro p P hp
    simp only [boot] at hp
    split_ifs at hp
    exact (some.inj hp).symm
  refine ⟨?_, ?_, ?_⟩ <;> intro p P hp <;> obtain rfl := hroot p P hp
  · nofun
  · nofun
  · exact ⟨nofun, List.nodup_nil, rfl, nofun⟩

/-- While processes exit only after their children are collected, and not those the kernel started,
every process finds its parent, and every zombie can be collected. -/
theorem reaches_rooted {roots : List ℕ} (h : Reaches Childless (boot roots) s) :
    s.Rooted ∧ ∀ p P, s.proc p = some P → P.threads ≠ 0 → (s.step (.exit p)).isSome := by
  have hsound : s.Sound := h.invariant (fun _ _ _ hI hok hs => Sound.step hI hok hs)
    (sound_boot roots)
  refine ⟨⟨hsound.parent, fun p P hp hnot hzero => ?_⟩, fun p P hp hrun => ?_⟩
  · obtain ⟨q, hq⟩ := ne_none_iff_exists'.mp ((hsound.fit p P hp).orphan hzero).1
    exact ⟨q, hsound.parent p P hp hnot q hq⟩
  · simp only [step, hp, bind_eq_bind, bind_some, hrun, if_false, hsound.exitLast hp hrun]
    split_ifs <;> rfl

instance (s : ProcTree) : DecidablePred s.Childless
  | .exit p => decidable_of_iff (∀ P ∈ s.proc p, P.threads = 1 → P.parent ≠ none ∧ P.children = [])
      Iff.rfl
  | .fork _ _ _ | .cloneThread _ | .wait4 _ _ | .findProc _ | .put _ => isTrue trivial

theorem reaches_rooted_collected : ∃ s, Reaches Childless (boot [1]) s ∧ s.Rooted ∧
    s.proc 2 = some ⟨some 1, [], 0, 1, 0, false⟩ ∧ s.Collects 1 2 := by
  obtain ⟨s, hs, heq⟩ : ∃ s ∈ [.fork 1 2 true, .fork 2 3 true, .exit 3, .wait4 2 none,
      .exit 2].foldlM (fun (s : ProcTree) e => if s.Childless e then s.step e else none) (boot [1]),
      s.proc 2 = some ⟨some 1, [], 0, 1, 0, false⟩ := by
    decide +kernel
  have hreach := Run.reaches_of_guarded hs
  have hrooted := (reaches_rooted hreach).1
  exact ⟨s, hreach, hrooted, heq, hrooted.parent 2 _ heq rfl 1 rfl⟩

/-- A process that exits before its child leaves it with a freed parent, to which the child's exit
writes. -/
theorem exit_frees_parent : ∃ s, Reaches (fun _ _ => True) (boot [1]) s ∧
    s.proc 3 = some ⟨some 2, [], 1, 1, 0, false⟩ ∧ s.proc 2 = none ∧ s.step (.exit 3) = none ∧
    ¬ s.Rooted := by
  obtain ⟨s, hs, hchild, hfreed, hexit⟩ : ∃ s ∈ [.fork 1 2 true, .fork 2 3 true, .exit 2,
      .wait4 1 none].foldlM (fun (s : ProcTree) e => s.step e) (boot [1]),
      s.proc 3 = some ⟨some 2, [], 1, 1, 0, false⟩ ∧ s.proc 2 = none ∧
      (s.step (.exit 3)).isNone = true := by
    decide +kernel
  refine ⟨s, Run.reaches_of_foldlM hs, hchild, hfreed, isNone_iff_eq_none.mp hexit, ?_⟩
  intro h
  obtain ⟨Q, hQ, -⟩ := h.parent 3 _ hchild rfl 2 rfl
  rw [hfreed] at hQ
  cases hQ

end ProcTree
end Doppio
