import Doppio.Library.Slots
import Mathlib.Data.Int.Notation

/-! The cache of shared file pages of `kernel/sys/sys_mmap.c`, with its page table entries and
frames. A frame is its number, 0 for the physical address 0. -/
namespace Doppio.SharedPages

structure FilePage where
  vn : ℕ
  offset : ℤ
  deriving DecidableEq

structure SharedPageEntry where
  page : FilePage
  phys : ℕ
  deriving DecidableEq

inductive Use where
  /-- it was read from this page of a file -/
  | file (page : FilePage)
  /-- a private page of a process -/
  | anon
  | kernel
  deriving DecidableEq

/-- The fields of `struct page` used here; `use`, not in the source, is `none` for a free frame. -/
structure Frame where
  isFree : Bool
  refCount : BitVec 32
  use : Option Use

structure Pte where
  map : ℕ
  vaddr : ℕ
  frame : ℕ
  deriving DecidableEq

structure State where
  frame : ℕ → Frame
  /-- `g_shared_pages`, up to the last slot that was ever used -/
  slots : List (Option SharedPageEntry)
  /-- references to a vnode that the cache has -/
  vnRefs : ℕ → ℤ
  ptes : List Pte

def maxSharedPages : ℕ := 16384

namespace State

section
variable (s : State)

def setFrame (f : ℕ) (g : Frame → Frame) : State :=
  { s with frame := Function.update s.frame f (g (s.frame f)) }

/-- `page_alloc(0)` gives a frame `f` of the allocator. -/
def pageAlloc (f : ℕ) (use : Use) : Option State :=
  if (s.frame f).use = none then
    some (s.setFrame f fun _ => { isFree := false, refCount := 0, use := some use })
  else none

def pageFree (f : ℕ) : State :=
  s.setFrame f fun p => { p with isFree := true, use := none }

/-- `if (pg->ref_count > 0) pg->ref_count--`. -/
def dropRef (f : ℕ) : State :=
  s.setFrame f fun p => { p with refCount := if p.refCount = 0 then 0 else p.refCount - 1 }

def addRef (f : ℕ) : State :=
  s.setFrame f fun p => { p with refCount := p.refCount + 1 }

/-- `vref` and `vput` by the cache. -/
def addVnRef (vn : ℕ) (n : ℤ) : State :=
  { s with vnRefs := Function.update s.vnRefs vn (s.vnRefs vn + n) }

/-- The frame of an entry is free by its flag. -/
def stale (e : SharedPageEntry) : Bool := (s.frame e.phys).isFree

/-- `cleanup_stale_shared_pages_locked`. -/
def cleanupStaleSharedPages : State :=
  let r := Slots.sweep s.stale 32 s.slots
  r.2.foldl (fun s e => (s.dropRef e.phys).addVnRef e.page.vn (-1)) { s with slots := r.1 }

/-- `vma_shared_lookup`; 0 is a miss. -/
def vmaSharedLookup (page : FilePage) : ℕ × State :=
  match Slots.find (fun e => e.page = page) s.slots with
  | none => (0, s)
  | some e =>
    if s.stale e then
      let s := { s with slots := Slots.clear (fun e => e.page = page) s.slots }
      (0, (s.dropRef e.phys).addVnRef page.vn (-1))
    else (e.phys, s)

def vmaSharedRegister (page : FilePage) (phys : ℕ) : State :=
  let s := s.cleanupStaleSharedPages
  match Slots.find (fun e => e.page = page) s.slots with
  | some _ => s
  | none =>
    match Slots.insert ⟨page, phys⟩ maxSharedPages s.slots with
    | some slots => ({ s with slots }.addVnRef page.vn 1).addRef phys
    | none => s

def pteAt (map vaddr : ℕ) : Option Pte :=
  s.ptes.find? fun p => p.map = map ∧ p.vaddr = vaddr

def erasePte (map vaddr : ℕ) : State :=
  { s with ptes := s.ptes.eraseP fun p => p.map = map ∧ p.vaddr = vaddr }

/-- The locked end of `handle_page_fault`; `pteOk`: `vmm_get_pte` gives an entry. -/
def installPte (map vaddr phys : ℕ) (pteOk : Bool) : State :=
  if pteOk ∧ s.pteAt map vaddr = none then
    { s with ptes := ⟨map, vaddr, phys⟩ :: s.ptes }.addRef phys
  else s.pageFree phys

end

variable {s : State} {page : FilePage} {f g : ℕ}

/-- The frame is handed out, also by its flag. -/
def Busy (s : State) (f : ℕ) : Prop := (s.frame f).use ≠ none ∧ (s.frame f).isFree = false

/-- The cache names frames that are handed out. -/
def EntriesBusy (s : State) : Prop := ∀ e ∈ Slots.entries s.slots, s.Busy e.phys

section
variable (h : s.EntriesBusy)
include h

theorem EntriesBusy.not_stale :
    ∀ e ∈ Slots.entries s.slots, s.stale e = false := fun e he => (h e he).2

theorem EntriesBusy.cleanup_eq : s.cleanupStaleSharedPages = s := by
  rw [cleanupStaleSharedPages, Slots.sweep_of_forall_not h.not_stale]
  rfl

theorem EntriesBusy.lookup_cases (page : FilePage) :
    (s.vmaSharedLookup page = (0, s) ∧ ∀ e ∈ Slots.entries s.slots, e.page ≠ page) ∨
      ∃ e ∈ Slots.entries s.slots, e.page = page ∧ s.vmaSharedLookup page = (e.phys, s) := by
  unfold vmaSharedLookup
  cases hfind : Slots.find (fun e => decide (e.page = page)) s.slots with
  | none =>
    refine .inl ⟨rfl, fun e he => ?_⟩
    simpa using Slots.find_eq_none.mp hfind e he
  | some e =>
    obtain ⟨he, hpage⟩ := Slots.find_eq_some hfind
    refine .inr ⟨e, he, of_decide_eq_true hpage, ?_⟩
    dsimp only
    rw [if_neg (by rw [h.not_stale e he]; decide)]

theorem EntriesBusy.register_cases (page : FilePage) (phys : ℕ) :
    (s.vmaSharedRegister page phys = s ∧
        ((∃ e ∈ Slots.entries s.slots, e.page = page) ∨
          Slots.insert ⟨page, phys⟩ maxSharedPages s.slots = none)) ∨
      (∀ e ∈ Slots.entries s.slots, e.page ≠ page) ∧
        ∃ slots, Slots.insert ⟨page, phys⟩ maxSharedPages s.slots = some slots ∧
          s.vmaSharedRegister page phys = ({ s with slots }.addVnRef page.vn 1).addRef phys := by
  unfold vmaSharedRegister
  rw [h.cleanup_eq]
  cases hfind : Slots.find (fun e => decide (e.page = page)) s.slots with
  | some e =>
    obtain ⟨he, hpage⟩ := Slots.find_eq_some hfind
    dsimp only
    rw [hfind]
    exact .inl ⟨rfl, .inl ⟨e, he, of_decide_eq_true hpage⟩⟩
  | none =>
    dsimp only
    rw [hfind]
    cases hins : Slots.insert ⟨page, phys⟩ maxSharedPages s.slots with
    | none => exact .inl ⟨rfl, .inr rfl⟩
    | some slots =>
      exact .inr ⟨fun e he => by simpa using Slots.find_eq_none.mp hfind e he, slots, rfl, rfl⟩

end

theorem frame_setFrame (s : State) (f g : ℕ) (h : Frame → Frame) :
    (s.setFrame f h).frame g = if g = f then h (s.frame f) else s.frame g := by
  simp only [setFrame, Function.update_apply]

theorem busy_setFrame {h : Frame → Frame} (hf : (h (s.frame f)).use ≠ none)
    (hfree : (h (s.frame f)).isFree = false) (hg : s.Busy g ∨ g = f) : (s.setFrame f h).Busy g := by
  rw [Busy, frame_setFrame]
  split_ifs with hgf
  · exact ⟨hf, hfree⟩
  · exact hg.resolve_right hgf

theorem busy_addRef (hg : s.Busy g) (f : ℕ) : (s.addRef f).Busy g := by
  rw [Busy, addRef, frame_setFrame]
  split_ifs with hgf
  · exact hgf ▸ hg
  · exact hg

theorem busy_pageFree (hg : s.Busy g) (hne : g ≠ f) : (s.pageFree f).Busy g := by
  rw [Busy, pageFree, frame_setFrame, if_neg hne]
  exact hg

end State
end Doppio.SharedPages
