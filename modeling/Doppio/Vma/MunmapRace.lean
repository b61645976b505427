import Doppio.Library.Run
import Mathlib.Data.Fintype.Basic

/-! `sys_munmap` of `kernel/sys/sys_mmap.c` in one thread, page faults in the others:
`handle_page_fault` looks an address up under `p_vma_lock` and maps a page later, under the lock of
the page table. Pages are numbered; a fault on a present entry leaves it present and is no step. -/
namespace Doppio.MunmapRace
open Function

inductive Fault where
  | none
  /-- the entry of the page was not present -/
  | taken (page : ℕ)
  /-- `vma_resolve_fault` has found a VMA -/
  | resolved (page : ℕ)
  deriving DecidableEq

structure State (τ : Type*) where
  /-- the entry of the page is present -/
  present : ℕ → Bool
  /-- a VMA holds the page -/
  covered : ℕ → Bool
  fault : τ → Fault
  /-- the page that `sys_munmap` unmaps next -/
  next : ℕ
  /-- `sys_munmap` has returned -/
  returned : Bool

inductive Event (τ : Type*) where
  | take (t : τ) (page : ℕ)
  | resolve (t : τ)
  /-- `ok` is false without a page-table page -/
  | map (t : τ) (ok : Bool)
  | unmap
  /-- `vma_remove_range`: the VMAs keep the pages in `keep` -/
  | remove (keep : ℕ → Bool)

variable {τ : Type*} [DecidableEq τ] {first last : ℕ} {s s' : State τ}

def State.setFault (s : State τ) (t : τ) (f : Fault) : State τ :=
  { s with fault := update s.fault t f }

/-- One step while `[first, last)` is unmapped. -/
def State.step (last : ℕ) (s : State τ) : Event τ → Option (State τ)
  | .take t page =>
    if s.fault t = .none ∧ s.present page = false then
      some (s.setFault t (.taken page))
    else none
  | .resolve t =>
    match s.fault t with
    | .taken page => some (s.setFault t (if s.covered page then .resolved page else .none))
    | _ => none
  | .map t ok =>
    match s.fault t with
    | .resolved page =>
      -- a page that is present by now is left alone, and stays present
      some { s.setFault t .none with
        present := if ok then update s.present page true else s.present }
    | _ => none
  | .unmap =>
    if s.next < last then
      some { s with present := update s.present s.next false, next := s.next + 1 }
    else none
  | .remove keep =>
    if s.next = last ∧ s.returned = false then
      some { s with covered := fun page => s.covered page && keep page, returned := true }
    else none

/-- A page is unmapped while a fault on it is between its VMA and its entry, or a fault finds the
VMA of an unmapped page. The last case is a `vma_remove_range` that leaves a part, as when
`vma_split` fails. -/
def State.Straddled (first last : ℕ) (s : State τ) : Event τ → Prop
  | .resolve t =>
    s.returned = false ∧
      ∃ page < s.next, first ≤ page ∧ s.covered page = true ∧ s.fault t = .taken page
  | .unmap => ∃ t, s.fault t = .resolved s.next
  | .remove keep => ∃ page < last, first ≤ page ∧ keep page = true
  | _ => False

instance [Fintype τ] (s : State τ) (e : Event τ) : Decidable (s.Straddled first last e) :=
  match e with
  | .resolve t => inferInstanceAs (Decidable (s.returned = false ∧
      ∃ page < s.next, first ≤ page ∧ s.covered page = true ∧ s.fault t = .taken page))
  | .unmap => inferInstanceAs (Decidable (∃ t, s.fault t = .resolved s.next))
  | .remove keep => inferInstanceAs (Decidable (∃ page < last, first ≤ page ∧ keep page = true))
  | .take .. => inferInstanceAs (Decidable False)
  | .map .. => inferInstanceAs (Decidable False)

/-- What is unmapped already stays so. -/
structure State.Clean (first last : ℕ) (s : State τ) : Prop where
  absent : ∀ page, first ≤ page → page < s.next → s.present page = false
  unresolved : ∀ t page, first ≤ page → page < s.next → s.fault t ≠ .resolved page
  removed : s.returned = true →
    s.next = last ∧ ∀ page, first ≤ page → page < last → s.covered page = false

theorem State.Clean.setFault (h : s.Clean first last) (t : τ) {f : Fault}
    (hf : ∀ page, first ≤ page → page < s.next → f ≠ .resolved page) :
    (s.setFault t f).Clean first last := by
  refine ⟨h.absent, ?_, h.removed⟩
  intro t' page hfirst hlt
  simp only [State.setFault, update_apply]
  split_ifs
  · exact hf page hfirst hlt
  · exact h.unresolved t' page hfirst hlt

theorem State.Clean.step (h : s.Clean first last) {e : Event τ} (hok : ¬ s.Straddled first last e)
    (hs : s.step last e = some s') : s'.Clean first last := by
  simp only [State.Straddled] at hok
  cases e with
  | take t page =>
    obtain ⟨-, hs⟩ := Option.ite_none_right_eq_some.mp hs
    cases hs
    exact h.setFault t (by simp)
  | resolve t =>
    simp only [State.step] at hs
    split at hs <;> cases hs
    next page ht =>
      apply h.setFault t
      intro q hfirst hlt
      have := h.removed
      grind
  | map t ok =>
    simp only [State.step] at hs
    split at hs <;> cases hs
    next page ht =>
      obtain ⟨-, hunresolved, hremoved⟩ := h.setFault t (f := .none) (by simp)
      refine ⟨fun q hfirst hlt => ?_, hunresolved, hremoved⟩
      have hne : q ≠ page := fun hq => h.unresolved t page (hq ▸ hfirst) (hq ▸ hlt) ht
      have habsent := h.absent q hfirst hlt
      cases ok <;> simpa [hne] using habsent
  | unmap =>
    obtain ⟨hnext, hs⟩ := Option.ite_none_right_eq_some.mp hs
    cases hs
    have := h.absent
    have := h.unresolved
    have := h.removed
    constructor <;> grind [update_apply]
  | remove keep =>
    obtain ⟨hnext, hs⟩ := Option.ite_none_right_eq_some.mp hs
    cases hs
    exact ⟨h.absent, h.unresolved, by grind⟩

/-- Whatever faults are in flight when `sys_munmap` starts: once it has returned, no entry of the
range is present. -/
theorem State.reaches_unmapped (hnext : s.next = first) (hret : s.returned = false)
    (hs : Run.Reaches (fun s e s' => State.step last s e = some s')
      (fun s e => ¬ s.Straddled first last e) s s') (hdone : s'.returned = true) :
    ∀ page, first ≤ page → page < last → s'.present page = false := by
  have hstart : s.Clean first last := by
    constructor
    · intro page hfirst hlt
      omega
    · intro t page hfirst hlt
      omega
    · simp [hret]
  have h : s'.Clean first last :=
    hs.invariant (fun _ _ _ h hok hstep => h.step hok hstep) hstart
  obtain ⟨hlast, -⟩ := h.removed hdone
  intro page hfirst hlt
  exact h.absent page hfirst (hlast ▸ hlt)

/-- Two pages of memory, before `sys_munmap` of both. -/
def State.init : State (Fin 1) where
  present := fun _ => false
  covered := fun page => page < 2
  fault := fun _ => .none
  next := 0
  returned := false

theorem State.reaches_unmapped_fault : ∃ s : State (Fin 1),
    s.returned = true ∧ s.fault 0 = .none ∧ ∀ page, 0 ≤ page → page < 2 → s.present page = false := by
  obtain ⟨s, hs, heq⟩ : ∃ s ∈ [Event.take 0 1, .resolve 0, .map 0 true, .unmap, .unmap,
      .remove (fun _ => false), .take 0 1, .resolve 0].foldlM
      (fun (s : State (Fin 1)) e => if ¬ s.Straddled 0 2 e then s.step 2 e else none) State.init,
      s.returned = true ∧ s.fault 0 = .none := by
    decide +kernel
  exact ⟨s, heq.1, heq.2, State.reaches_unmapped rfl rfl (Run.reaches_of_guarded hs) heq.1⟩

/-- The other thread finds the VMA before `sys_munmap` and maps its page after it. -/
theorem State.fault_after_unmap : ∃ s : State (Fin 1),
    [Event.take 0 1, .resolve 0, .unmap, .unmap, .remove (fun _ => false),
      .map 0 true].foldlM (State.step 2) State.init = some s ∧
    s.returned = true ∧ s.fault 0 = .none ∧ s.present 1 = true :=
  ⟨_, rfl, rfl, rfl, rfl⟩

end Doppio.MunmapRace
