import Doppio.Library.Run
import Mathlib.Data.Nat.Notation
import Mathlib.Logic.Function.Basic

/-! A `MAP_SHARED | MAP_ANONYMOUS` mapping over `sys_fork`: `handle_page_fault` and `mmu_clone_map`
of `kernel/arch/x86_64/mmu.c`, with `vma_resolve_fault` for an anonymous mapping. Addresses are in
pages. -/
namespace Doppio.ForkShared
open Function Option

inductive Side where
  | parent
  | child
  deriving DecidableEq

def Side.other : Side → Side
  | .parent => .child
  | .child => .parent

/-- `struct vm_area` without a vnode. -/
structure Area where
  first : ℕ
  last : ℕ
  write : Bool
  shared : Bool

def Area.Covers (a : Area) (page : ℕ) : Prop := a.first ≤ page ∧ page < a.last

instance (a : Area) (page : ℕ) : Decidable (a.Covers page) := inferInstanceAs (Decidable (_ ∧ _))

structure Entry where
  frame : ℕ
  writable : Bool
  cow : Bool
  shared : Bool
  deriving DecidableEq

/-- The two processes; there is no child before `sys_fork`. -/
structure State where
  vma : Side → Option Area
  entry : Side → ℕ → Option Entry
  memory : ℕ → ℕ → BitVec 8
  /-- the frames that the allocator has given out -/
  used : ℕ → Bool

inductive Event where
  /-- a fault on an absent page; `page_alloc` gives `f`; `ok`: `vmm_get_pte` gives an entry -/
  | fault (p : Side) (page f : ℕ) (ok : Bool)
  /-- a write fault on a present page; `alone`: `ref_count` is at most 1 -/
  | writeFault (p : Side) (page f : ℕ) (alone : Bool)
  | store (p : Side) (page off : ℕ) (v : BitVec 8)

def Event.Writes (page off : ℕ) : Event → Prop
  | .store _ q i _ => q = page ∧ i = off
  | _ => False

namespace State

section
variable (s : State)

def setEntry (p : Side) (page : ℕ) (e : Entry) : State :=
  { s with entry := update s.entry p (update (s.entry p) page (some e)) }

/-- `page_alloc`, and the frame filled. -/
def alloc (f : ℕ) (bytes : ℕ → BitVec 8) : State :=
  { s with
    memory := update s.memory f bytes
    used := update s.used f true }

def pageFree (f : ℕ) : State := { s with used := update s.used f false }

def fault (p : Side) (page f : ℕ) (ok : Bool) : Option State :=
  match s.vma p with
  | none => none
  | some a =>
    if a.Covers page ∧ s.used f = false then
      let t := s.alloc f fun _ => 0
      if ok ∧ s.entry p page = none then some (t.setEntry p page ⟨f, a.write, false, a.shared⟩)
      else some (t.pageFree f)
    else none

def writeFault (p : Side) (page f : ℕ) (alone : Bool) : Option State :=
  match s.entry p page with
  | none => none
  | some e =>
    if e.cow then
      if alone then some (s.setEntry p page { e with writable := true, cow := false })
      else if s.used f = false then
        some ((s.alloc f (s.memory e.frame)).setEntry p page
          { e with frame := f, writable := true, cow := false })
      else none
    else none

def store (p : Side) (page off : ℕ) (v : BitVec 8) : Option State :=
  match s.entry p page with
  | none => none
  | some e =>
    if e.writable then
      some { s with memory := update s.memory e.frame (update (s.memory e.frame) off v) }
    else none

def step : Event → Option State
  | .fault p page f ok => s.fault p page f ok
  | .writeFault p page f alone => s.writeFault p page f alone
  | .store p page off v => s.store p page off v

/-- A load; a page that is not present is first filled with zeros. -/
def load (p : Side) (page off : ℕ) : BitVec 8 :=
  match s.entry p page with
  | none => 0
  | some e => s.memory e.frame off

/-- An entry after `mmu_clone_map`, in both page tables. -/
def cloneEntry (e : Entry) : Entry :=
  if e.writable ∧ ¬ e.shared then { e with writable := false, cow := true } else e

/-- `mmu_clone_map` and the copies of the areas in `sys_fork`. -/
def fork : State :=
  { s with
    vma := fun _ => s.vma .parent
    entry := fun _ page => (s.entry .parent page).map cloneEntry }

structure Mapped (a : Area) : Prop where
  parent : s.vma .parent = some a
  child : s.vma .child = none
  shared : a.shared = true
  entry : ∀ p page, s.entry p page = none

/-- No entry is copied on write, and no frame is at two pages. -/
structure Sound (a : Area) : Prop where
  shared : a.shared = true
  parent : s.vma .parent = some a
  vma : ∀ p b, s.vma p = some b → b = a
  entry : ∀ p page e, s.entry p page = some e → s.used e.frame ∧ e.cow = false ∧ e.shared ∧
    e.writable = a.write
  inj : ∀ p q page page' e e', s.entry p page = some e → s.entry q page' = some e' →
    e.frame = e'.frame → page = page'

end

variable {s s' t u : State} {a : Area} {e : Event} {page off : ℕ} {v : BitVec 8} {E : Entry}

theorem Sound.step_cases (h : s.Sound a) (hs : s.step e = some s') :
    (∃ p q f, s.used f = false ∧ s.entry p q = none ∧
      s' = (s.alloc f fun _ => 0).setEntry p q ⟨f, a.write, false, a.shared⟩) ∨
    (∃ f, s.used f = false ∧ s' = (s.alloc f fun _ => 0).pageFree f) ∨
    (∃ p q off v, ∃ E : Entry, e = .store p q off v ∧ s.entry p q = some E ∧ s' = { s with
        memory := update s.memory E.frame (update (s.memory E.frame) off v) }) := by
  cases e with
  | fault p q f ok =>
    simp only [State.step, State.fault] at hs
    split at hs
    · cases hs
    case h_2 b hb =>
      obtain rfl := h.vma p b hb
      split_ifs at hs with hf hnew <;> obtain rfl := some.inj hs
      · exact .inl ⟨p, q, f, hf.2, hnew.2, rfl⟩
      · exact .inr (.inl ⟨f, hf.2, rfl⟩)
  | writeFault p q f alone =>
    simp only [State.step, State.writeFault] at hs
    split at hs
    · cases hs
    case h_2 E hE =>
      rw [(h.entry p q E hE).2.1] at hs
      cases hs
  | store p q off v =>
    simp only [State.step, State.store] at hs
    split at hs
    · cases hs
    case h_2 E hE =>
      obtain ⟨-, hs⟩ := ite_none_right_eq_some.mp hs
      exact .inr (.inr ⟨p, q, off, v, E, rfl, hE, (some.inj hs).symm⟩)

theorem Sound.step (h : s.Sound a) (hs : s.step e = some s') : s'.Sound a := by
  have hcases := h.step_cases hs
  obtain ⟨hshared, hparent, hvma, hentry, hinj⟩ := h
  rcases hcases with ⟨p, q, f, hf, -, rfl⟩ | ⟨f, hf, rfl⟩ | ⟨p, q, off, v, E, -, -, rfl⟩
  · refine ⟨hshared, hparent, hvma, ?_, ?_⟩ <;> simp only [alloc, setEntry, update_apply] <;> grind
  · refine ⟨hshared, hparent, hvma, ?_, hinj⟩
    simp only [alloc, pageFree]
    grind
  · exact ⟨hshared, hparent, hvma, hentry, hinj⟩

abbrev Reaches (ok : State → Event → Prop) : State → State → Prop :=
  Run.Reaches (fun s e s' => s.step e = some s') ok

theorem Mapped.sound (h : s.Mapped a) : s.Sound a := by
  have hentry := h.entry
  refine ⟨h.shared, h.parent, fun p b hb => ?_, by simp [hentry], by simp [hentry]⟩
  cases p with
  | parent => exact some.inj (hb.symm.trans h.parent)
  | child => rw [h.child] at hb; cases hb

theorem Sound.fork (h : s.Sound a) (p : Side) : s.fork.entry p = s.entry .parent := by
  funext page
  cases hE : s.entry .parent page with
  | none => simp [State.fork, hE]
  | some E => simp [State.fork, hE, cloneEntry, (h.entry _ _ _ hE).2.2.1]

theorem Sound.sound_fork (h : s.Sound a) : s.fork.Sound a := by
  have hfork := h.fork
  obtain ⟨hshared, hparent, hvma, hentry, hinj⟩ := h
  constructor
  · exact hshared
  · exact hparent
  · exact fun p b hb => hvma .parent b hb
  · intro p page E hE
    rw [hfork] at hE
    exact hentry .parent page E hE
  · intro p q page page' E E' hE hE'
    rw [hfork] at hE hE'
    exact hinj _ _ _ _ _ _ hE hE'

def Joined (s : State) (page : ℕ) (E : Entry) : Prop := ∀ p, s.entry p page = some E

theorem Joined.step (h : s.Sound a) (hj : s.Joined page E) (hs : s.step e = some s') :
    s'.Joined page E := by
  unfold Joined at hj ⊢
  rcases h.step_cases hs with ⟨p, q, f, hf, hnew, rfl⟩ | ⟨f, hf, rfl⟩ | ⟨p, q, off, v, E, -, -, rfl⟩
  · intro r
    simp only [alloc, setEntry, update_apply]
    grind
  · exact hj
  · exact hj

theorem Joined.memory_step (h : s.Sound a) (hj : s.Joined page E) (he : ¬ e.Writes page off)
    (hs : s.step e = some s') : s'.memory E.frame off = s.memory E.frame off := by
  have hused := (h.entry .parent page E (hj _)).1
  have hinj := h.inj
  rcases h.step_cases hs with ⟨p, q, f, hf, -, rfl⟩ | ⟨f, hf, rfl⟩ | ⟨p, q, i, v, E', rfl, hE', rfl⟩
  · simp only [alloc, setEntry, update_apply]
    grind
  · simp only [alloc, pageFree, update_apply]
    grind
  · by_cases hframe : E'.frame = E.frame
    · have hq := hinj _ _ _ _ _ _ hE' (hj p) hframe
      have hi : off ≠ i := fun heq => he ⟨hq, heq.symm⟩
      simp [hframe, hi]
    · simp [update_of_ne (Ne.symm hframe)]

theorem Joined.load (h : s.Joined page E) (p : Side) : s.load p page off = s.memory E.frame off := by
  simp [State.load, h p]

/-- A page of the mapping is shared after `sys_fork` exactly if the parent had it before: then a
store of one process is what the other loads until the next store, else each gets a frame. -/
theorem fork_shares_iff {s₀ : State} (h₀ : s₀.Mapped a) (h : Reaches (fun _ _ => True) s₀ s)
    (hwrite : a.write = true) (hpage : a.Covers page) (hfree : ∃ f, s.used f = false) :
    (∀ t, Reaches (fun _ _ => True) s.fork t → ∀ p off v t', t.step (.store p page off v) = some t' →
      ∀ u, Reaches (fun _ e => ¬ e.Writes page off) t' u → u.load p.other page off = v) ↔
    (s.entry .parent page).isSome := by
  have hsound : s.Sound a := h.invariant (fun _ _ _ hI _ hs => Sound.step hI hs) h₀.sound
  constructor
  · -- the child faults, stores, and the parent has not that page
    intro hall
    by_contra hnone
    rw [Bool.not_eq_true, isSome_eq_false_iff, isNone_iff_eq_none] at hnone
    obtain ⟨f, hf⟩ := hfree
    have hnot : s.fork.entry .child page = none := by rw [hsound.fork, hnone]
    obtain ⟨t, ht⟩ : ∃ t, t = (s.fork.alloc f fun _ => 0).setEntry .child page
        ⟨f, a.write, false, a.shared⟩ := ⟨_, rfl⟩
    have hfault : s.fork.step (.fault .child page f true) = some t := by
      have hvma : s.fork.vma .child = some a := hsound.parent
      have hfree : s.fork.used f = false := hf
      simp [State.step, State.fault, hvma, hpage, hfree, hnot, ht]
    have hentry : t.entry .child page = some ⟨f, a.write, false, a.shared⟩ := by
      simp [ht, setEntry]
    obtain ⟨t', hstore⟩ : ∃ t', t.step (.store .child page 0 1) = some t' := by
      simp [State.step, State.store, hentry, hwrite]
    have hload := hall t (.single _ trivial hfault) .child 0 1 t' hstore t' (.refl t')
    simp only [State.step, State.store, hentry, hwrite] at hstore
    rw [← some.inj hstore, ht] at hload
    simp [State.load, Side.other, setEntry, alloc, hsound.fork, hnone] at hload
  · intro hpres t ht p off v t' hstore u hu
    obtain ⟨E, hE⟩ := isSome_iff_exists.mp hpres
    have hjoined : s.fork.Joined page E := fun q => by rw [hsound.fork, hE]
    obtain ⟨hts, htj⟩ : t.Sound a ∧ t.Joined page E := ht.invariant
      (I := fun t => t.Sound a ∧ t.Joined page E)
      (fun _ _ _ hI _ hs => ⟨hI.1.step hs, hI.2.step hI.1 hs⟩) ⟨hsound.sound_fork, hjoined⟩
    have hv : t'.memory E.frame off = v := by
      simp only [State.step, State.store, htj p] at hstore
      obtain ⟨-, hstore⟩ := ite_none_right_eq_some.mp hstore
      cases hstore
      simp
    obtain ⟨-, huj, huv⟩ : u.Sound a ∧ u.Joined page E ∧ u.memory E.frame off = v := hu.invariant
      (I := fun u => u.Sound a ∧ u.Joined page E ∧ u.memory E.frame off = v)
      (fun _ _ _ hI hok hs => ⟨hI.1.step hs, hI.2.1.step hI.1 hs,
        (hI.2.1.memory_step hI.1 hok hs).trans hI.2.2⟩)
      ⟨hts.step hstore, htj.step hts hstore, hv⟩
    rw [huj.load, huv]

/-- The pages 5 and 6 mapped, and frames from 9 on. -/
def mapped : State where
  vma
    | .parent => some ⟨5, 7, true, true⟩
    | .child => none
  entry _ _ := none
  memory _ _ := 0
  used f := decide (f < 9)

theorem mapped_mapped : mapped.Mapped ⟨5, 7, true, true⟩ := ⟨rfl, rfl, rfl, fun _ _ => rfl⟩

theorem fork_shares_touched : ∃ s, Reaches (fun _ _ => True) mapped s ∧
    ∀ t, Reaches (fun _ _ => True) s.fork t → ∀ p off v t', t.step (.store p 5 off v) = some t' →
      ∀ u, Reaches (fun _ e => ¬ e.Writes 5 off) t' u → u.load p.other 5 off = v := by
  obtain ⟨s, hs, heq⟩ : ∃ s ∈ mapped.step (.fault .parent 5 9 true),
      (s.entry .parent 5).isSome = true ∧ s.used 10 = false := by
    decide +kernel
  have hreach : Reaches (fun _ _ => True) mapped s := .single _ trivial hs
  exact ⟨s, hreach, (fork_shares_iff mapped_mapped hreach rfl (by decide) ⟨10, heq.2⟩).mpr heq.1⟩

/-- The child stores to a page that the parent has not touched; the parent loads a zero. -/
theorem fork_splits_untouched : ∃ t, Reaches (fun _ _ => True) mapped.fork t ∧
    t.load .child 5 0 = 1 ∧ t.load .parent 5 0 = 0 := by
  obtain ⟨s, hs, heq⟩ : ∃ s ∈ [.fault .child 5 9 true, .fault .parent 5 10 true,
      .store .child 5 0 1].foldlM (fun (s : State) e => s.step e) mapped.fork,
      s.load .child 5 0 = 1 ∧ s.load .parent 5 0 = 0 := by
    decide +kernel
  exact ⟨s, Run.reaches_of_foldlM hs, heq⟩

end State
end Doppio.ForkShared
