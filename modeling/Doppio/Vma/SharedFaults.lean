import Doppio.Library.Run
import Doppio.Vma.SharedPages
import Mathlib.Data.List.Nodup

/-! Page faults of many threads on shared mappings: `vma_resolve_fault` of `kernel/mm/vma.c` and
`handle_page_fault`, one step for each section, allocation and read of the file. -/
namespace Doppio.SharedPages
open List Option

/-- Where a thread is in a fault, with its frame. -/
inductive Pc where
  | idle
  /-- before `vma_shared_lookup` -/
  | looking (map vaddr : ℕ) (page : FilePage) (f : ℕ)
  /-- before the file is read -/
  | reading (map vaddr : ℕ) (page : FilePage) (f : ℕ)
  /-- before `vma_shared_register` -/
  | registering (map vaddr : ℕ) (page : FilePage) (f : ℕ)
  /-- `vma_resolve_fault` has returned 0 -/
  | unresolved (map vaddr : ℕ)
  /-- before the page table lock -/
  | mapping (map vaddr : ℕ) (f : ℕ)
  deriving DecidableEq

/-- The threads and the mappings of the processes, which do not change. -/
structure Faults where
  mem : State
  vma : ℕ → ℕ → Option FilePage
  pc : ℕ → Pc

/-- One step of thread `i`, with the frames that `page_alloc` gives. -/
inductive FaultEvent where
  | begin (i map vaddr f : ℕ)
  | lookup (i : ℕ)
  | read (i : ℕ) (ok : Bool)
  | register (i : ℕ)
  | alloc (i f : ℕ)
  | map (i : ℕ)

namespace Faults

section
variable (s : Faults)

def move (i : ℕ) (mem : State) (pc : Pc) : Faults :=
  { s with mem, pc := Function.update s.pc i pc }

/-- A fault on an absent entry; it allocates a frame. -/
def begin (i map vaddr f : ℕ) : Option Faults :=
  match s.pc i, s.vma map vaddr with
  | .idle, some page =>
    if s.mem.pteAt map vaddr = none then
      (s.mem.pageAlloc f .kernel).map fun mem => s.move i mem (.looking map vaddr page f)
    else none
  | _, _ => none

/-- With the page in the cache the thread's frame is superfluous. -/
def lookup (i : ℕ) : Option Faults :=
  match s.pc i with
  | .looking map vaddr page f =>
    let r := s.mem.vmaSharedLookup page
    if r.1 ≠ 0 then some (s.move i (r.2.pageFree f) (.mapping map vaddr r.1))
    else some (s.move i r.2 (.reading map vaddr page f))
  | _ => none

def read (i : ℕ) (ok : Bool) : Option Faults :=
  match s.pc i with
  | .reading map vaddr page f =>
    if ok then
      let mem := s.mem.setFrame f fun p => { p with use := some (.file page) }
      some (s.move i mem (.registering map vaddr page f))
    else some (s.move i (s.mem.pageFree f) (.unresolved map vaddr))
  | _ => none

/-- The caller takes the frame at address 0 for a failure. -/
def register (i : ℕ) : Option Faults :=
  match s.pc i with
  | .registering map vaddr page f =>
    let mem := s.mem.vmaSharedRegister page f
    some (s.move i mem (if f = 0 then .unresolved map vaddr else .mapping map vaddr f))
  | _ => none

/-- `handle_page_fault` takes a zero page where nothing was found. -/
def alloc (i f : ℕ) : Option Faults :=
  match s.pc i with
  | .unresolved map vaddr =>
    (s.mem.pageAlloc f .anon).map fun mem => s.move i mem (.mapping map vaddr f)
  | _ => none

end

def map (s : Faults) (i : ℕ) : Option Faults :=
  match s.pc i with
  | .mapping map vaddr f => some (s.move i (s.mem.installPte map vaddr f true) .idle)
  | _ => none

end Faults

section
variable (s : Faults)

def faultStep : FaultEvent → Option Faults
  | .begin i map vaddr f => s.begin i map vaddr f
  | .lookup i => s.lookup i
  | .read i ok => s.read i ok
  | .register i => s.register i
  | .alloc i f => s.alloc i f
  | .map i => s.map i

/-- All entries for a page of a file name one frame. -/
def Faults.Agree : Prop :=
  ∀ page, ∀ p ∈ s.mem.ptes, ∀ q ∈ s.mem.ptes, s.vma p.map p.vaddr = some page →
    s.vma q.map q.vaddr = some page → p.frame = q.frame

def RegistersNew (mem : State) : Pc → Prop
  | .registering _ _ page _ => ∀ e ∈ Slots.entries mem.slots, e.page ≠ page
  | _ => True

/-- The entry about to be filled is not present. -/
def MapsAbsent (mem : State) : Pc → Prop
  | .mapping map vaddr _ => mem.pteAt map vaddr = none
  | _ => True

instance (mem : State) : (pc : Pc) → Decidable (RegistersNew mem pc)
  | .registering _ _ page _ =>
    inferInstanceAs (Decidable (∀ e ∈ Slots.entries mem.slots, e.page ≠ page))
  | .idle | .looking .. | .reading .. | .unresolved .. | .mapping .. => instDecidableTrue

instance (mem : State) : (pc : Pc) → Decidable (MapsAbsent mem pc)
  | .mapping map vaddr _ => inferInstanceAs (Decidable (mem.pteAt map vaddr = none))
  | .idle | .looking .. | .reading .. | .unresolved .. | .registering .. => instDecidableTrue

/-- Frame 0 is not handed out, the file is read without error, a registered page has no entry yet,
and a fault fills an entry that is not present. -/
def Alone : FaultEvent → Prop
  | .begin _ _ _ f => f ≠ 0
  | .read _ ok => ok = true
  | .register i => RegistersNew s.mem (s.pc i)
  | .map i => MapsAbsent s.mem (s.pc i)
  | .lookup _ | .alloc _ _ => True

instance : (e : FaultEvent) → Decidable (Alone s e)
  | .begin _ _ _ f => inferInstanceAs (Decidable (f ≠ 0))
  | .read _ ok => inferInstanceAs (Decidable (ok = true))
  | .register i => inferInstanceAs (Decidable (RegistersNew s.mem (s.pc i)))
  | .map i => inferInstanceAs (Decidable (MapsAbsent s.mem (s.pc i)))
  | .lookup _ | .alloc _ _ => instDecidableTrue

/-- The frame allocated by a thread that nobody else knows. -/
def Pc.ownFrame : Pc → Option ℕ
  | .looking _ _ _ f | .reading _ _ _ f | .registering _ _ _ f => some f
  | .idle | .unresolved _ _ | .mapping _ _ _ => none

/-- The thread is at what the mappings say. -/
def Pc.Fits (pc : Pc) (s : Faults) : Prop :=
  match pc with
  | .idle => True
  | .looking map vaddr page _ | .reading map vaddr page _ | .registering map vaddr page _ =>
    s.vma map vaddr = some page
  | .unresolved _ _ => False
  | .mapping map vaddr f => ∃ page, s.vma map vaddr = some page ∧
    ⟨page, f⟩ ∈ Slots.entries s.mem.slots

/-- Fewer pages are mapped than the cache has slots. -/
def Faults.FewPages : Prop :=
  ∃ pages : List FilePage, pages.length < maxSharedPages ∧
    ∀ map vaddr page, s.vma map vaddr = some page → page ∈ pages

structure Faults.Inv : Prop where
  few : s.FewPages
  nodup : ((Slots.entries s.mem.slots).map SharedPageEntry.page).Nodup
  busy : s.mem.EntriesBusy
  named : ∀ e ∈ Slots.entries s.mem.slots, ∃ map vaddr, s.vma map vaddr = some e.page
  nonzero : ∀ e ∈ Slots.entries s.mem.slots, e.phys ≠ 0
  own : ∀ i f, (s.pc i).ownFrame = some f → s.mem.Busy f ∧ f ≠ 0 ∧
    (∀ e ∈ Slots.entries s.mem.slots, e.phys ≠ f) ∧ ∀ j, j ≠ i → (s.pc j).ownFrame ≠ some f
  fits : ∀ i, (s.pc i).Fits s
  mapped : ∀ p ∈ s.mem.ptes, ∃ page, s.vma p.map p.vaddr = some page ∧
    ⟨page, p.frame⟩ ∈ Slots.entries s.mem.slots

end

namespace Faults
variable {s s' : Faults} {i map vaddr f : ℕ} {page : FilePage}

theorem Inv.phys_eq (h : s.Inv) {f g : ℕ} (hf : ⟨page, f⟩ ∈ Slots.entries s.mem.slots)
    (hg : ⟨page, g⟩ ∈ Slots.entries s.mem.slots) : f = g := by
  have heq := inj_on_of_nodup_map h.nodup hf hg rfl
  exact congrArg SharedPageEntry.phys heq

theorem Inv.agree (h : s.Inv) : s.Agree := by
  intro page p hp q hq hpage hqpage
  obtain ⟨page', hp', hpe⟩ := h.mapped p hp
  obtain ⟨page'', hq', hqe⟩ := h.mapped q hq
  cases hpage.symm.trans hp'
  cases hqpage.symm.trans hq'
  exact h.phys_eq hpe hqe

@[simp] theorem pc_move_self (s : Faults) (i : ℕ) (mem : State) (pc : Pc) :
    (s.move i mem pc).pc i = pc := Function.update_self ..

theorem pc_move_of_ne {j : ℕ} (s : Faults) (mem : State) (pc : Pc) (h : j ≠ i) :
    (s.move i mem pc).pc j = s.pc j := Function.update_of_ne h _ _

theorem move_move (s : Faults) (i : ℕ) (mem mem' : State) (pc pc' : Pc) :
    (s.move i mem pc).move i mem' pc' = s.move i mem' pc' := by
  simp only [move, Function.update_idem]

theorem fits_mono {pc : Pc} (h : pc.Fits s) (hvma : s'.vma = s.vma)
    (hentries : ∀ e ∈ Slots.entries s.mem.slots, e ∈ Slots.entries s'.mem.slots) : pc.Fits s' := by
  cases pc with
  | idle => trivial
  | looking | reading | registering => exact (congrFun (congrFun hvma _) _).trans h
  | unresolved => exact h
  | mapping map vaddr f =>
    obtain ⟨page, hpage, he⟩ := h
    exact ⟨page, (congrFun (congrFun hvma _) _).trans hpage, hentries _ he⟩

/-- What holds of a thread's frame. -/
def OwnOk (s : Faults) (mem : State) (i f : ℕ) : Prop :=
  mem.Busy f ∧ f ≠ 0 ∧ (∀ e ∈ Slots.entries s.mem.slots, e.phys ≠ f) ∧
    ∀ j, j ≠ i → (s.pc j).ownFrame ≠ some f

theorem Inv.advance {mem : State} {pc : Pc} (h : s.Inv) (hslots : mem.slots = s.mem.slots)
    (hptes : mem.ptes = s.mem.ptes)
    (hbusy : ∀ g, s.mem.Busy g → (s.pc i).ownFrame ≠ some g → mem.Busy g)
    (hown : ∀ f, pc.ownFrame = some f → s.OwnOk mem i f)
    (hfits : pc.Fits (s.move i mem pc)) : (s.move i mem pc).Inv where
  few := h.few
  nodup := by
    show ((Slots.entries mem.slots).map SharedPageEntry.page).Nodup
    rw [hslots]
    exact h.nodup
  busy e he := by
    have he : e ∈ Slots.entries s.mem.slots := hslots ▸ he
    exact hbusy e.phys (h.busy e he) fun hi => (h.own i e.phys hi).2.2.1 e he rfl
  named e he := h.named e (hslots ▸ he)
  nonzero e he := h.nonzero e (hslots ▸ he)
  own j f hf := by
    show mem.Busy f ∧ f ≠ 0 ∧ (∀ e ∈ Slots.entries mem.slots, e.phys ≠ f) ∧ _
    rw [hslots]
    by_cases hj : j = i
    · rw [hj, pc_move_self] at hf
      obtain ⟨hb, hz, hapart, hdist⟩ := hown f hf
      refine ⟨hb, hz, hapart, fun k hk => ?_⟩
      rw [pc_move_of_ne s mem pc (hj ▸ hk)]
      exact hdist k (hj ▸ hk)
    · rw [pc_move_of_ne s mem pc hj] at hf
      obtain ⟨hb, hz, hapart, hdist⟩ := h.own j f hf
      refine ⟨hbusy f hb (hdist i (Ne.symm hj)), hz, hapart, fun k hk => ?_⟩
      by_cases hki : k = i
      · rw [hki, pc_move_self]
        exact fun hpc => (hown f hpc).2.2.2 j hj hf
      · rw [pc_move_of_ne s mem pc hki]
        exact hdist k hk
  fits j := by
    by_cases hj : j = i
    · rw [hj, pc_move_self]
      exact hfits
    · rw [pc_move_of_ne s mem pc hj]
      exact fits_mono (h.fits j) rfl fun e he => hslots ▸ he
  mapped p hp := by
    obtain ⟨page, hpage, he⟩ := h.mapped p (hptes ▸ hp)
    exact ⟨page, hpage, hslots ▸ he⟩

theorem busy_of_pageAlloc {m m' : State} {use : Use} {g : ℕ} (hm : m.pageAlloc f use = some m')
    (hg : m.Busy g ∨ g = f) : m'.Busy g := by
  unfold State.pageAlloc at hm
  split_ifs at hm
  cases hm
  exact State.busy_setFrame (some_ne_none _) rfl hg

theorem not_busy_of_pageAlloc {m m' : State} {use : Use} (hm : m.pageAlloc f use = some m') :
    ¬m.Busy f ∧ m'.slots = m.slots ∧ m'.ptes = m.ptes := by
  unfold State.pageAlloc at hm
  split_ifs at hm with hnone
  cases hm
  exact ⟨fun hb => hb.1 hnone, rfl, rfl⟩

section
variable (h : s.Inv)
include h

theorem Inv.begin (hz : f ≠ 0) (hs : s.begin i map vaddr f = some s') : s'.Inv := by
  unfold Faults.begin at hs
  split at hs
  · next hpc hvma =>
    split_ifs at hs
    obtain ⟨mem, hmem, rfl⟩ := map_eq_some_iff.mp hs
    obtain ⟨hfree, hslots, hptes⟩ := not_busy_of_pageAlloc hmem
    refine h.advance hslots hptes (fun g hg _ => busy_of_pageAlloc hmem (.inl hg))
      (fun g hg => ?_) hvma
    cases hg
    refine ⟨busy_of_pageAlloc hmem (.inr rfl), hz, fun e he hef => ?_, fun j _ hj => ?_⟩
    · exact hfree (hef ▸ h.busy e he)
    · exact hfree (h.own j f hj).1
  · cases hs

theorem Inv.lookup (hs : s.lookup i = some s') : s'.Inv := by
  unfold Faults.lookup at hs
  split at hs
  · next map vaddr page f hpc =>
    have hfit : s.vma map vaddr = some page := by
      have := h.fits i
      rwa [hpc] at this
    have hi : (s.pc i).ownFrame = some f := by rw [hpc]; rfl
    rcases h.busy.lookup_cases page with ⟨hmiss, -⟩ | ⟨e, he, rfl, hhit⟩
    · rw [hmiss] at hs
      cases hs
      exact h.advance rfl rfl (fun g hg _ => hg) (fun g hg => h.own i g (hi.trans hg)) hfit
    · rw [hhit] at hs
      rw [if_pos (h.nonzero e he)] at hs
      cases hs
      refine h.advance rfl rfl (fun g hg hne => ?_) (fun g hg => by cases hg) ⟨e.page, hfit, he⟩
      exact State.busy_pageFree hg fun hgf => hne (hgf ▸ hi)
  · cases hs

theorem Inv.read {ok : Bool} (hok : ok = true) (hs : s.read i ok = some s') :
    s'.Inv := by
  unfold Faults.read at hs
  split at hs
  · next map vaddr page f hpc =>
    have hfit : s.vma map vaddr = some page := by
      have := h.fits i
      rwa [hpc] at this
    have hi : (s.pc i).ownFrame = some f := by rw [hpc]; rfl
    obtain ⟨hb, hz, hapart, hdist⟩ := h.own i f hi
    rw [if_pos hok] at hs
    cases hs
    have hbusy (g : ℕ) (hg : s.mem.Busy g) :
        (s.mem.setFrame f fun p => { p with use := some (.file page) }).Busy g :=
      State.busy_setFrame (some_ne_none _) hb.2 (.inl hg)
    refine h.advance rfl rfl (fun g hg _ => hbusy g hg) (fun g hg => ?_) hfit
    cases hg
    exact ⟨hbusy f hb, hz, hapart, hdist⟩
  · cases hs

theorem Inv.addEntry {slots : List (Option SharedPageEntry)} (vnRefs : ℕ → ℤ)
    (hins : Slots.insert ⟨page, f⟩ maxSharedPages s.mem.slots = some slots)
    (hnew : ∀ e ∈ Slots.entries s.mem.slots, e.page ≠ page) (hb : s.mem.Busy f) (hz : f ≠ 0)
    (hown : ∀ j, (s.pc j).ownFrame ≠ some f) (hvma : s.vma map vaddr = some page) :
    { s with mem := { s.mem with slots, vnRefs } }.Inv := by
  have hperm := Slots.entries_insert hins
  have hmem (e : SharedPageEntry) : e ∈ Slots.entries slots ↔
      e = ⟨page, f⟩ ∨ e ∈ Slots.entries s.mem.slots := by
    rw [hperm.mem_iff, mem_cons]
  refine ⟨h.few, ?_, fun e he => ?_, fun e he => ?_, fun e he => ?_, fun j g hg => ?_, fun j => ?_,
    fun p hp => ?_⟩
  · refine (hperm.map SharedPageEntry.page).nodup_iff.mpr (nodup_cons.mpr ⟨?_, h.nodup⟩)
    intro hpage
    obtain ⟨e, he, heq⟩ := mem_map.mp hpage
    exact hnew e he heq
  · rcases (hmem e).mp he with rfl | he
    · exact hb
    · exact h.busy e he
  · rcases (hmem e).mp he with rfl | he
    · exact ⟨map, vaddr, hvma⟩
    · exact h.named e he
  · rcases (hmem e).mp he with rfl | he
    · exact hz
    · exact h.nonzero e he
  · obtain ⟨hgb, hgz, hapart, hdist⟩ := h.own j g hg
    refine ⟨hgb, hgz, fun e he => ?_, hdist⟩
    rcases (hmem e).mp he with rfl | he
    · rintro rfl
      exact hown j hg
    · exact hapart e he
  · exact fits_mono (h.fits j) rfl fun e he => (hmem e).mpr (.inr he)
  · obtain ⟨page, hpage, he⟩ := h.mapped p hp
    exact ⟨page, hpage, (hmem _).mpr (.inr he)⟩

theorem Inv.insert_isSome (e : SharedPageEntry) :
    ∃ slots, Slots.insert e maxSharedPages s.mem.slots = some slots := by
  obtain ⟨pages, hlen, hpages⟩ := h.few
  refine Slots.insert_isSome e (Nat.lt_of_le_of_lt ?_ hlen)
  rw [← length_map SharedPageEntry.page]
  refine (subperm_of_subset h.nodup fun page hpage => ?_).length_le
  obtain ⟨e, he, rfl⟩ := mem_map.mp hpage
  obtain ⟨map, vaddr, hvma⟩ := h.named e he
  exact hpages map vaddr e.page hvma

theorem Inv.register (hok : Alone s (.register i)) (hs : s.register i = some s') :
    s'.Inv := by
  unfold Faults.register at hs
  split at hs
  · next map vaddr page f hpc =>
    have hfit : s.vma map vaddr = some page := by
      have := h.fits i
      rwa [hpc] at this
    obtain ⟨hb, hz, -, hdist⟩ := h.own i f (by rw [hpc]; rfl)
    obtain ⟨slots, hins⟩ := h.insert_isSome ⟨page, f⟩
    have hnew : ∀ e ∈ Slots.entries s.mem.slots, e.page ≠ page := by
      rwa [Alone, hpc] at hok
    -- the thread gives its frame to the cache, and then has it from there
    have hidle : (s.move i s.mem .idle).Inv :=
      h.advance rfl rfl (fun g hg _ => hg) (fun g hg => by cases hg) trivial
    have hentry := hidle.addEntry (s.mem.addVnRef page.vn 1).vnRefs hins hnew hb hz (fun j => by
      by_cases hj : j = i
      · rw [hj, pc_move_self]
        exact nofun
      · rw [pc_move_of_ne s _ _ hj]
        exact hdist j hj) hfit
    rcases h.busy.register_cases page f with ⟨-, ⟨e, he, hpage⟩ | hfull⟩ | ⟨-, slots', hins', hreg⟩
    · exact absurd hpage (hnew e he)
    · rw [hins] at hfull
      cases hfull
    · cases hins.symm.trans hins'
      rw [if_neg hz, hreg] at hs
      rw [← some.inj hs, ← move_move s i s.mem _ .idle]
      refine hentry.advance rfl rfl (fun g hg _ => State.busy_addRef hg f) (fun g hg => by cases hg)
        ⟨page, hfit, ?_⟩
      exact (Slots.entries_insert hins).mem_iff.mpr mem_cons_self
  · cases hs

theorem Inv.install (hok : Alone s (.map i)) (hs : s.map i = some s') : s'.Inv := by
  unfold Faults.map at hs
  split at hs
  · next map vaddr f hpc =>
    have hfit : ∃ page, s.vma map vaddr = some page ∧ ⟨page, f⟩ ∈ Slots.entries s.mem.slots := by
      have := h.fits i
      rwa [hpc] at this
    have hpte : { s with mem := { s.mem with ptes := ⟨map, vaddr, f⟩ :: s.mem.ptes } }.Inv :=
      { h with
        mapped := fun p hp => by
          rcases mem_cons.mp hp with rfl | hp
          · exact hfit
          · exact h.mapped p hp }
    have habsent : s.mem.pteAt map vaddr = none := by rwa [Alone, hpc] at hok
    rw [State.installPte, if_pos ⟨rfl, habsent⟩] at hs
    cases hs
    exact hpte.advance rfl rfl (fun g hg _ => State.busy_addRef hg f) (fun g hg => by cases hg)
      trivial
  · cases hs

theorem Inv.alloc (hs : s.alloc i f = some s') : s'.Inv := by
  unfold Faults.alloc at hs
  split at hs
  · next map vaddr hpc =>
    have hfit := h.fits i
    rw [hpc] at hfit
    exact hfit.elim
  · cases hs

theorem Inv.step {e : FaultEvent} (hok : Alone s e) (hs : faultStep s e = some s') :
    s'.Inv := by
  cases e with
  | «begin» i map vaddr f => exact h.begin hok hs
  | lookup i => exact h.lookup hs
  | read i ok => exact h.read hok hs
  | register i => exact h.register hok hs
  | alloc i f => exact h.alloc hs
  | map i => exact h.install hok hs

end

/-- An empty cache, no page table entries, and no fault under way. -/
structure Start (s : Faults) : Prop where
  slots : s.mem.slots = []
  ptes : s.mem.ptes = []
  idle : ∀ i, s.pc i = .idle
  few : s.FewPages

theorem Start.inv (h : s.Start) : s.Inv := by
  have hempty : Slots.entries s.mem.slots = [] := by
    rw [h.slots, Slots.entries, reduceOption_nil]
  refine ⟨h.few, ?_, fun e he => ?_, fun e he => ?_, fun e he => ?_, fun i f hf => ?_,
    fun i => ?_, fun p hp => ?_⟩
  · rw [hempty]
    exact nodup_nil
  · rw [hempty] at he
    cases he
  · rw [hempty] at he
    cases he
  · rw [hempty] at he
    cases he
  · rw [h.idle i] at hf
    cases hf
  · rw [h.idle i]
    trivial
  · rw [h.ptes] at hp
    cases hp

end Faults

/-- While the steps meet the condition, the entries for one page of a file name one frame. -/
theorem reaches_agree {s₀ s : Faults} (h₀ : s₀.Start)
    (hrun : Run.Reaches (fun s e s' => faultStep s e = some s') Alone s₀ s) : s.Agree :=
  (hrun.invariant (fun _ _ _ hI hok hstep => hI.step hok hstep) h₀.inv).agree

/-- Two processes map the first page of a file at address 0; all frames are free. -/
def twoMaps : Faults where
  mem :=
    { frame := fun _ => ⟨true, 0, none⟩
      slots := []
      vnRefs := fun _ => 0
      ptes := [] }
  vma := fun map vaddr => if map < 2 ∧ vaddr = 0 then some ⟨1, 0⟩ else none
  pc := fun _ => .idle

theorem twoMaps_start : twoMaps.Start where
  slots := rfl
  ptes := rfl
  idle _ := rfl
  few := by
    refine ⟨[⟨1, 0⟩], by decide, fun map vaddr page hpage => ?_⟩
    simp only [twoMaps] at hpage
    split_ifs at hpage
    exact mem_singleton.mpr (some.inj hpage).symm

/-- The faults of two threads in sequence. -/
def oneAfterOther : List FaultEvent :=
  [.begin 0 0 0 1, .lookup 0, .read 0 true, .register 0, .map 0, .begin 1 1 0 2, .lookup 1, .map 1]

/-- Two faults that both miss the cache. -/
def bothMiss : List FaultEvent :=
  [.begin 0 0 0 1, .lookup 0, .begin 1 1 0 2, .lookup 1, .read 0 true, .read 1 true, .register 0,
    .register 1, .map 0, .map 1]

theorem reaches_agree_second : ∃ s, oneAfterOther.foldlM
    (fun s e => if Alone s e then faultStep s e else none) twoMaps = some s ∧
    s.mem.ptes.length = 2 ∧ s.Agree := by
  obtain ⟨s, hs, hlen⟩ : ∃ s ∈ oneAfterOther.foldlM
      (fun s e => if Alone s e then faultStep s e else none) twoMaps, s.mem.ptes.length = 2 := by
    decide +kernel
  exact ⟨s, hs, hlen, reaches_agree twoMaps_start (Run.reaches_of_guarded hs)⟩

/-- The second registration is ignored, and the thread maps its own frame. -/
theorem both_miss_disagree : ∃ s, bothMiss.foldlM faultStep twoMaps = some s ∧ ¬s.Agree := by
  obtain ⟨s, hs, hptes, h0, h1⟩ : ∃ s ∈ bothMiss.foldlM faultStep twoMaps,
      s.mem.ptes = [⟨1, 0, 2⟩, ⟨0, 0, 1⟩] ∧ s.vma 0 0 = some ⟨1, 0⟩ ∧ s.vma 1 0 = some ⟨1, 0⟩ := by
    decide +kernel
  refine ⟨s, hs, fun hagree => ?_⟩
  have heq := hagree ⟨1, 0⟩ ⟨1, 0, 2⟩ (by rw [hptes]; exact mem_cons_self) ⟨0, 0, 1⟩
    (by rw [hptes]; exact mem_cons_of_mem _ mem_cons_self) h1 h0
  cases heq

end Doppio.SharedPages
