import Doppio.Library.Run
import Doppio.Vma.SharedPages
import Mathlib.Algebra.Group.Nat.Defs
import Mathlib.Data.List.Count
import Mathlib.Data.List.Nodup

/-! The calls that use the shared-page cache: faults on shared mappings, `sys_munmap`, `sys_mremap`
and `mmu_destroy_map`. Addresses are in pages. -/
namespace Doppio.SharedPages
open List Nat Option BitVec

namespace State

variable (s : State)

/-- The frame of a removed entry loses a reference, and is freed with the last one. -/
def release (f : ℕ) : State :=
  let s := s.dropRef f
  if (s.frame f).refCount = 0 then s.pageFree f else s

def mmuUnmap (map vaddr : ℕ) : State :=
  match s.pteAt map vaddr with
  | none => s
  | some p => (s.release p.frame).erasePte map vaddr

/-- `mmu_map_4k`; `pteOk`: `vmm_get_pte` gives an entry. -/
def mmuMap4k (map vaddr phys : ℕ) (pteOk : Bool) : Bool × State :=
  if ¬pteOk then (false, s)
  else
    let s := match s.pteAt map vaddr with
      | some p => (s.dropRef p.frame).erasePte map vaddr
      | none => s
    (true, { s with ptes := ⟨map, vaddr, phys⟩ :: s.ptes }.addRef phys)

/-- `mmu_destroy_map` for the pages of the process. -/
def mmuDestroyMap (map : ℕ) : State :=
  (s.ptes.filter fun p => p.map = map).foldl (fun s p => s.mmuUnmap p.map p.vaddr) s

def unmapRange (s : State) (map start : ℕ) : ℕ → State
  | 0 => s
  | n + 1 => (s.unmapRange map start n).mmuUnmap map (start + n)

def fill (f : ℕ) (page : FilePage) : State :=
  s.setFrame f fun p => { p with use := some (.file page) }

def zeroFault (map vaddr blank : ℕ) (pteOk : Bool) : Option State :=
  (s.pageAlloc blank .anon).map fun s => s.installPte map vaddr blank pteOk

/-- A page not in the cache is read into the new frame and registered. -/
def readFault (map vaddr : ℕ) (page : FilePage) (f blank : ℕ) (readOk pteOk : Bool) :
    Option State :=
  if readOk then
    let s := (s.fill f page).vmaSharedRegister page f
    if f = 0 then s.zeroFault map vaddr blank pteOk else some (s.installPte map vaddr f pteOk)
  else (s.pageFree f).zeroFault map vaddr blank pteOk

/-- A fault on an absent page of a shared mapping; the frames are what `page_alloc` gives (`none`:
it fails). -/
def sharedFault (map vaddr : ℕ) (page : FilePage) (frame : Option ℕ) (blank : ℕ)
    (readOk pteOk : Bool) : Option State :=
  if s.pteAt map vaddr ≠ none then none
  else
    match frame with
    | none => s.zeroFault map vaddr blank pteOk
    | some f =>
      match s.pageAlloc f .kernel with
      | none => none
      | some s =>
        let r := s.vmaSharedLookup page
        if r.1 ≠ 0 then some ((r.2.pageFree f).installPte map vaddr r.1 pteOk)
        else r.2.readFault map vaddr page f blank readOk pteOk

/-- The search of `sys_mremap`: an entry whose frame is free is cleared, its references stay. -/
def mremapLookup (page : FilePage) : ℕ × State :=
  let r := Slots.scan (fun e => e.page = page) s.stale s.slots
  ((r.1.map SharedPageEntry.phys).getD 0, { s with slots := r.2 })

/-- The registration in `sys_mremap`, without a reference. -/
def mremapRegister (page : FilePage) (phys : ℕ) : State :=
  match Slots.insert ⟨page, phys⟩ maxSharedPages s.slots with
  | some slots => { s with slots }.addVnRef page.vn 1
  | none => s

end State

/-- The frame that `page_alloc` gives, and whether the file is read and the entry found. -/
structure GrowEnv where
  frame : Option ℕ
  readOk : Bool
  pteOk : Bool

namespace State

/-- One page of a shared file in the growing loops of `sys_mremap`; true: the loop goes on. -/
def growShared (s : State) (map vaddr : ℕ) (page : FilePage) (env : GrowEnv) :
    Option (Bool × State) :=
  let r := s.mremapLookup page
  let s := r.2
  if r.1 ≠ 0 then some (s.mmuMap4k map vaddr r.1 env.pteOk)
  else
    match env.frame with
    | none => some (false, s)
    | some f =>
      match s.pageAlloc f .kernel with
      | none => none
      | some s =>
        if ¬env.readOk then some (false, s.pageFree f)
        else
          let r := (s.fill f page).cleanupStaleSharedPages.mremapLookup page
          let s := r.2
          if r.1 ≠ 0 then some ((s.pageFree f).mmuMap4k map vaddr r.1 env.pteOk)
          else
            let s := s.mremapRegister page f
            if env.pteOk then some (s.mmuMap4k map vaddr f true)
            else
              let s := { s with slots := Slots.clear (fun e => e.page = page) s.slots }
              some (false, s.pageFree f)

/-- One page of a private mapping grown in place. -/
def growPrivate (s : State) (map vaddr : ℕ) (env : GrowEnv) : Option (Bool × State) :=
  match env.frame with
  | none => some (false, s)
  | some f =>
    match s.pageAlloc f .anon with
    | none => none
    | some s =>
      if env.pteOk then some (s.mmuMap4k map vaddr f true) else some (false, s.pageFree f)

end State

def FilePage.plus (page : FilePage) (k : ℕ) : FilePage := ⟨page.vn, page.offset + 4096 * k⟩

namespace State

def growPage (s : State) (map old : ℕ) (file : Option FilePage) (env : ℕ → GrowEnv) (k : ℕ) :
    Option (Bool × State) :=
  match file with
  | some page => s.growShared map (old + k) (page.plus k) (env k)
  | none => s.growPrivate map (old + k) (env k)

/-- The loop that grows in place, with the pages left. -/
def growInPlace (map old : ℕ) (file : Option FilePage) (env : ℕ → GrowEnv) :
    ℕ → ℕ → State → Option State
  | 0, _, s => some s
  | n + 1, k, s =>
    match s.growPage map old file env k with
    | none => none
    | some (false, s) => some s
    | some (true, s) => growInPlace map old file env n (k + 1) s

def movePage (s : State) (map old new : ℕ) (file : Option FilePage) (env : ℕ → GrowEnv) (k : ℕ) :
    State :=
  let s := s.mmuUnmap map (new + k)
  let paddr := ((s.pteAt map (old + k)).map Pte.frame).getD 0
  if paddr ≠ 0 then
    (s.mmuMap4k map (new + k) paddr (env k).pteOk).2.mmuUnmap map (old + k)
  else
    match file with
    | some page =>
      -- the frame of the entry is not looked at here
      let cached := ((Slots.find (fun e => e.page = page.plus k) s.slots).map
        SharedPageEntry.phys).getD 0
      let s := if cached ≠ 0 then (s.mmuMap4k map (new + k) cached (env k).pteOk).2 else s
      s.mmuUnmap map (old + k)
    | none => s.mmuUnmap map (old + k)

def moveRange (s : State) (map old new : ℕ) (file : Option FilePage) (env : ℕ → GrowEnv) : ℕ → State
  | 0 => s
  | n + 1 => (s.moveRange map old new file env n).movePage map old new file env n

/-- The loop that grows a moved mapping. -/
def growMoved (map new : ℕ) (file : Option FilePage) (env : ℕ → GrowEnv) :
    ℕ → ℕ → State → Option State
  | 0, _, s => some s
  | n + 1, k, s =>
    let s := s.mmuUnmap map (new + k)
    match file with
    | none => growMoved map new file env n (k + 1) s
    | some page =>
      match s.growShared map (new + k) (page.plus k) (env k) with
      | none => none
      | some (false, s) => some s
      | some (true, s) => growMoved map new file env n (k + 1) s

end State

/-- The file of a shared mapping, and the address from `sys_mmap` if the mapping has to move. -/
structure Mremap where
  map : ℕ
  old : ℕ
  oldPages : ℕ
  newPages : ℕ
  mayMove : Bool
  new : ℕ
  file : Option FilePage
  env : ℕ → GrowEnv

namespace State

def sysMremap (s : State) (c : Mremap) : Option State :=
  if c.oldPages = c.newPages then some s
  else if c.newPages < c.oldPages then
    some (s.unmapRange c.map (c.old + c.newPages) (c.oldPages - c.newPages))
  else if ∀ k < c.newPages - c.oldPages, s.pteAt c.map (c.old + c.oldPages + k) = none then
    growInPlace c.map c.old c.file c.env (c.newPages - c.oldPages) c.oldPages s
  else if ¬c.mayMove then some s
  else
    growMoved c.map c.new c.file c.env (c.newPages - c.oldPages) c.oldPages
      (s.moveRange c.map c.old c.new c.file c.env c.oldPages)

end State

inductive CacheEvent where
  | fault (map vaddr : ℕ) (page : FilePage) (frame : Option ℕ) (blank : ℕ) (readOk pteOk : Bool)
  | lookup (page : FilePage)
  /-- a page of a file is read into a new frame -/
  | readPage (f : ℕ) (page : FilePage)
  | register (page : FilePage) (f : ℕ)
  | munmap (map start pages : ℕ)
  | mremap (call : Mremap)
  | destroy (map : ℕ)
  /-- somebody else gets a frame; only the first of a block has its flag cleared -/
  | alloc (f : ℕ) (first : Bool)
  /-- the owner of a frame neither mapped nor cached gives it back -/
  | discard (f : ℕ)

namespace State

def uses (s : State) (f : ℕ) : ℕ :=
  (s.ptes.map Pte.frame).count f + ((Slots.entries s.slots).map SharedPageEntry.phys).count f

/-- Somebody else gets the frame. -/
def allocOther (s : State) (f : ℕ) (first : Bool) : Option State :=
  if (s.frame f).use = none then
    some (s.setFrame f fun p => { p with isFree := !first && p.isFree, use := some .kernel })
  else none

end State

def cacheStep (s : State) : CacheEvent → Option State
  | .fault map vaddr page frame blank readOk pteOk =>
    s.sharedFault map vaddr page frame blank readOk pteOk
  | .lookup page => some (s.vmaSharedLookup page).2
  | .readPage f page => (s.pageAlloc f .kernel).map fun s => s.fill f page
  | .register page f =>
    if (s.frame f).use = some (.file page) then some (s.vmaSharedRegister page f) else none
  | .munmap map start pages => some (s.unmapRange map start pages)
  | .mremap call => s.sysMremap call
  | .destroy map => some (s.mmuDestroyMap map)
  | .alloc f first => s.allocOther f first
  | .discard f => if (s.frame f).use ≠ none ∧ s.uses f = 0 then some (s.pageFree f) else none

/-- Handed out as a page of a file or a process. -/
def Use.Mappable : Option Use → Prop
  | some (.file _) | some .anon => True
  | some .kernel | none => False

/-- The claim of the cache on its frames and vnodes. -/
structure Consistent (s : State) : Prop where
  /-- no page of a file has two entries -/
  once : ((Slots.entries s.slots).map SharedPageEntry.page).Nodup
  /-- the frame of an entry is handed out, with the page of the file -/
  holds : ∀ e ∈ Slots.entries s.slots, (s.frame e.phys).use = some (.file e.page)
  /-- the references of its frame are those of the page tables and one more -/
  frameRef : ∀ e ∈ Slots.entries s.slots,
    (s.frame e.phys).refCount = BitVec.ofNat 32 ((s.ptes.map Pte.frame).count e.phys + 1)
  /-- every entry has one reference to its vnode -/
  vnodeRef : ∀ vn, s.vnRefs vn = (Slots.entries s.slots).countP fun e => e.page.vn = vn

/-- No count wraps, not even after `n` more uses. -/
def Few (s : State) (n : ℕ) : Prop := s.ptes.length + n + 1 < 2 ^ 32

variable {n : ℕ}

theorem Few.of_le {s : State} {m : ℕ} (h : Few s n) (hmn : m ≤ n) : Few s m := by
  unfold Few at *
  omega

section
variable (s : State)

/-- In the cache, at a frame that `sys_mremap` can tell from none. -/
def Cached (page : FilePage) : Prop :=
  ∃ e ∈ Slots.entries s.slots, e.page = page ∧ e.phys ≠ 0

def GrownCached : Option FilePage → ℕ → ℕ → Prop
  | none, _, _ => True
  | some page, k, n => ∀ i < n, Cached s (page.plus (k + i))

/-- Room in the counts, and the new pages of a shared mapping that grows are in the cache. -/
def MremapOk (c : Mremap) : Prop :=
  Few s c.newPages ∧ GrownCached s c.file c.oldPages (c.newPages - c.oldPages)

/-- Page tables can be allocated for a fault, a mapping that `sys_mremap` grows has its pages in the
cache, and no count wraps. -/
def CacheOk : CacheEvent → Prop
  | .fault _ _ _ _ _ _ pteOk => pteOk = true
  | .mremap call => MremapOk s call
  | .munmap _ _ _ | .destroy _ => Few s 0
  | .lookup _ | .readPage _ _ | .register _ _ | .alloc _ _ | .discard _ => True

instance (n : ℕ) : Decidable (Few s n) := Nat.decLt _ _

instance (page : FilePage) : Decidable (Cached s page) :=
  inferInstanceAs (Decidable (∃ e ∈ Slots.entries s.slots, e.page = page ∧ e.phys ≠ 0))

instance : (file : Option FilePage) → (k n : ℕ) → Decidable (GrownCached s file k n)
  | none, _, _ => instDecidableTrue
  | some page, k, n => inferInstanceAs (Decidable (∀ i < n, Cached s (page.plus (k + i))))

instance : (e : CacheEvent) → Decidable (CacheOk s e)
  | .fault _ _ _ _ _ _ pteOk => inferInstanceAs (Decidable (pteOk = true))
  | .mremap call => inferInstanceAs (Decidable (Few s call.newPages ∧
      GrownCached s call.file call.oldPages (call.newPages - call.oldPages)))
  | .munmap _ _ _ | .destroy _ => inferInstanceAs (Decidable (Few s 0))
  | .lookup _ | .readPage _ _ | .register _ _ | .alloc _ _ | .discard _ => instDecidableTrue

structure Books : Prop where
  once : ((Slots.entries s.slots).map SharedPageEntry.page).Nodup
  holds : ∀ e ∈ Slots.entries s.slots, (s.frame e.phys).use = some (.file e.page)
  flag : ∀ f, Use.Mappable (s.frame f).use → (s.frame f).isFree = false
  unused : ∀ f, ¬Use.Mappable (s.frame f).use → s.uses f = 0
  counted : ∀ f, Use.Mappable (s.frame f).use → (s.frame f).refCount = BitVec.ofNat 32 (s.uses f)
  vnodeRef : ∀ vn, s.vnRefs vn = (Slots.entries s.slots).countP fun e => e.page.vn = vn

end

namespace Books
variable {s s' t : State} {f map vaddr : ℕ} {page : FilePage}

section
variable (h : Books s)
include h

theorem entriesBusy : s.EntriesBusy := by
  intro e he
  have huse := h.holds e he
  refine ⟨by rw [huse]; exact some_ne_none _, h.flag e.phys ?_⟩
  rw [huse]
  trivial

theorem count_phys {e : SharedPageEntry} (he : e ∈ Slots.entries s.slots) :
    ((Slots.entries s.slots).map SharedPageEntry.phys).count e.phys = 1 := by
  have hinj : ∀ a ∈ Slots.entries s.slots, ∀ b ∈ Slots.entries s.slots, a.phys = b.phys →
      a = b := by
    intro a ha b hb hab
    have hpage := (h.holds a ha).symm.trans (hab ▸ h.holds b hb)
    obtain ⟨pa, fa⟩ := a
    simp only [some.injEq, Use.file.injEq] at hpage hab
    rw [hpage, hab]
  have hnodup : ((Slots.entries s.slots).map SharedPageEntry.phys).Nodup :=
    Nodup.map_on hinj h.once.of_map
  exact count_eq_one_of_mem hnodup (mem_map_of_mem he)

theorem setFrame {g : Frame → Frame} (hf : s.uses f = 0)
    (hflag : Use.Mappable (g (s.frame f)).use → (g (s.frame f)).isFree = false)
    (hcount : Use.Mappable (g (s.frame f)).use → (g (s.frame f)).refCount = 0) :
    Books (s.setFrame f g) := by
  have huses (k : ℕ) : (s.setFrame f g).uses k = s.uses k := rfl
  refine ⟨h.once, fun e he => ?_, fun k hk => ?_, fun k hk => ?_, fun k hk => ?_, h.vnodeRef⟩
  · have hne : e.phys ≠ f := by
      rintro rfl
      have hone := h.count_phys he
      rw [State.uses] at hf
      omega
    rw [State.frame_setFrame, if_neg hne]
    exact h.holds e he
  · rw [State.frame_setFrame] at hk ⊢
    split_ifs at hk ⊢
    · exact hflag hk
    · exact h.flag k hk
  · rw [State.frame_setFrame] at hk
    split_ifs at hk with hkf
    · rw [huses, hkf, hf]
    · exact h.unused k hk
  · rw [State.frame_setFrame] at hk ⊢
    split_ifs at hk ⊢ with hkf
    · rw [huses, hkf, hf, hcount hk]
      rfl
    · exact h.counted k hk

theorem pageFree (hf : s.uses f = 0) : Books (s.pageFree f) :=
  h.setFrame hf False.elim False.elim

theorem pageAlloc {use : Use} (hs : s.pageAlloc f use = some s') :
    Books s' ∧ s'.uses f = 0 ∧ (s'.frame f) = ⟨false, 0, some use⟩ ∧ s'.ptes = s.ptes ∧
      s'.slots = s.slots := by
  unfold State.pageAlloc at hs
  split_ifs at hs with hnone
  cases hs
  have hf : s.uses f = 0 := h.unused f (by rw [hnone]; exact id)
  refine ⟨h.setFrame hf (fun _ => rfl) fun _ => rfl, hf, ?_, rfl, rfl⟩
  rw [State.frame_setFrame, if_pos rfl]

theorem fill (hf : s.uses f = 0) (hfree : (s.frame f).isFree = false)
    (hcount : (s.frame f).refCount = 0) (page : FilePage) : Books (s.fill f page) :=
  h.setFrame hf (fun _ => hfree) fun _ => hcount

theorem recount (hf : Use.Mappable (s.frame f).use) (hframe : ∀ k, s'.frame k =
      if k = f then { s.frame f with refCount := BitVec.ofNat 32 (s'.uses f) } else s.frame k)
    (huses : ∀ k, k ≠ f → s'.uses k = s.uses k)
    (honce : ((Slots.entries s'.slots).map SharedPageEntry.page).Nodup)
    (hholds : ∀ e ∈ Slots.entries s'.slots, (s.frame e.phys).use = some (.file e.page))
    (hvn : ∀ vn, s'.vnRefs vn = (Slots.entries s'.slots).countP fun e => e.page.vn = vn) :
    Books s' := by
  have huse (k : ℕ) : (s'.frame k).use = (s.frame k).use := by
    rw [hframe]
    split_ifs with hk
    · rw [hk]
    · rfl
  refine ⟨honce, fun e he => (huse e.phys).trans (hholds e he), fun k hk => ?_, fun k hk => ?_,
    fun k hk => ?_, hvn⟩
  · rw [huse] at hk
    rw [hframe]
    split_ifs with hkf
    · exact h.flag f hf
    · exact h.flag k hk
  · rw [huse] at hk
    have hkf : k ≠ f := by
      rintro rfl
      exact hk hf
    rw [huses k hkf]
    exact h.unused k hk
  · rw [huse] at hk
    rw [hframe]
    split_ifs with hkf
    · rw [hkf]
    · rw [huses k hkf]
      exact h.counted k hk

end

theorem ofNat_succ (n : ℕ) : BitVec.ofNat 32 n + 1 = BitVec.ofNat 32 (n + 1) :=
  (ofNat_add n 1).symm

theorem addPte (h : Books s) (hf : Use.Mappable (s.frame f).use) (map vaddr : ℕ) :
    Books ({ s with ptes := ⟨map, vaddr, f⟩ :: s.ptes }.addRef f) := by
  have huses (k : ℕ) : ({ s with ptes := ⟨map, vaddr, f⟩ :: s.ptes }.addRef f).uses k =
      (f :: s.ptes.map Pte.frame).count k +
        ((Slots.entries s.slots).map SharedPageEntry.phys).count k := rfl
  have hself : (s.frame f).refCount + 1 = BitVec.ofNat 32
      (({ s with ptes := ⟨map, vaddr, f⟩ :: s.ptes }.addRef f).uses f) := by
    rw [huses, count_cons_self, h.counted f hf, ofNat_succ, State.uses, Nat.add_right_comm]
  refine h.recount hf (fun k => ?_) (fun k hk => ?_) h.once h.holds h.vnodeRef
  · rw [← hself]
    exact State.frame_setFrame _ f k _
  · rw [huses, count_cons_of_ne (Ne.symm hk), State.uses]

theorem addEntry {slots : List (Option SharedPageEntry)} (h : Books s)
    (hf : (s.frame f).use = some (.file page)) (hnew : ∀ e ∈ Slots.entries s.slots, e.page ≠ page)
    (hins : Slots.insert ⟨page, f⟩ maxSharedPages s.slots = some slots) :
    Books (({ s with slots }.addVnRef page.vn 1).addRef f) := by
  have hperm := Slots.entries_insert hins
  have hmap : Use.Mappable (s.frame f).use := by rw [hf]; trivial
  have huses (k : ℕ) : (({ s with slots }.addVnRef page.vn 1).addRef f).uses k =
      (s.ptes.map Pte.frame).count k +
        (f :: (Slots.entries s.slots).map SharedPageEntry.phys).count k :=
    congrArg _ ((hperm.map SharedPageEntry.phys).count_eq k)
  have hself : (s.frame f).refCount + 1 = BitVec.ofNat 32
      ((({ s with slots }.addVnRef page.vn 1).addRef f).uses f) := by
    rw [huses, count_cons_self, h.counted f hmap, ofNat_succ, State.uses, add_assoc]
  refine h.recount hmap (fun k => ?_) (fun k hk => ?_) ?_ (fun e he => ?_) fun vn => ?_
  · rw [← hself]
    exact State.frame_setFrame _ f k _
  · rw [huses, count_cons_of_ne (Ne.symm hk), State.uses]
  · refine (hperm.map SharedPageEntry.page).nodup_iff.mpr (nodup_cons.mpr ⟨?_, h.once⟩)
    intro hpage
    obtain ⟨e, he, heq⟩ := mem_map.mp hpage
    exact hnew e he heq
  · rcases mem_cons.mp (hperm.mem_iff.mp he) with rfl | he
    · exact hf
    · exact h.holds e he
  · show Function.update s.vnRefs page.vn (s.vnRefs page.vn + 1) vn =
      (Slots.entries slots).countP fun e => e.page.vn = vn
    rw [hperm.countP_eq, countP_cons, Int.natCast_add, ← h.vnodeRef vn]
    by_cases hvn : vn = page.vn
    · simp [hvn]
    · simp [hvn, Ne.symm hvn]

variable {p : Pte}

theorem mem_of_pteAt (hp : s.pteAt map vaddr = some p) :
    p ∈ s.ptes ∧ p.map = map ∧ p.vaddr = vaddr := by
  have hkey := find?_some hp
  exact ⟨mem_of_find?_eq_some hp, of_decide_eq_true hkey⟩

theorem mappable_of_pte (h : Books s) (hp : p ∈ s.ptes) :
    Use.Mappable (s.frame p.frame).use := by
  by_contra hmap
  have hzero := h.unused p.frame hmap
  have hpos := count_pos_iff.mpr (mem_map_of_mem (f := Pte.frame) hp)
  rw [State.uses] at hzero
  omega

theorem pred_ofNat (hn : n + 1 < 2 ^ 32) :
    (if BitVec.ofNat 32 (n + 1) = 0 then 0 else BitVec.ofNat 32 (n + 1) - 1) =
      BitVec.ofNat 32 n := by
  have hne : BitVec.ofNat 32 (n + 1) ≠ 0 := by
    intro hzero
    have := congrArg BitVec.toNat hzero
    rw [toNat_ofNat, mod_eq_of_lt hn] at this
    cases this
  rw [if_neg hne, ← ofNat_succ, add_sub_cancel]

theorem dropPte (h : Books s) (hp : s.pteAt map vaddr = some p)
    (hfew : s.uses p.frame < 2 ^ 32) (ht : (s.dropRef p.frame).erasePte map vaddr = t) :
    Books t ∧ (t.frame p.frame).refCount = BitVec.ofNat 32 (t.uses p.frame) ∧
      t.uses p.frame < 2 ^ 32 := by
  have hmap := h.mappable_of_pte (mem_of_pteAt hp).1
  have hperm := (Slots.perm_cons_eraseP hp).map Pte.frame
  have huses (k : ℕ) : s.uses k = (p.frame :: t.ptes.map Pte.frame).count k +
      ((Slots.entries s.slots).map SharedPageEntry.phys).count k := by
    rw [← ht]
    exact congrArg (· + _) (hperm.count_eq k)
  have huses' (k : ℕ) : t.uses k = (t.ptes.map Pte.frame).count k +
      ((Slots.entries s.slots).map SharedPageEntry.phys).count k := by rw [← ht]; rfl
  have hsucc : s.uses p.frame = t.uses p.frame + 1 := by
    rw [huses, huses', count_cons_self]
    omega
  have hframe (k : ℕ) : t.frame k =
      if k = p.frame then { s.frame p.frame with refCount := BitVec.ofNat 32 (t.uses p.frame) }
      else s.frame k := by
    rw [← pred_ofNat (hsucc ▸ hfew), ← hsucc, ← h.counted p.frame hmap, ← ht]
    show (s.dropRef p.frame).frame k = _
    rw [State.dropRef, State.frame_setFrame]
  refine ⟨h.recount hmap hframe (fun k hk => ?_) ?_ ?_ ?_, ?_, by omega⟩
  · rw [huses, huses', count_cons_of_ne (Ne.symm hk)]
  · rw [← ht]
    exact h.once
  · rw [← ht]
    exact h.holds
  · rw [← ht]
    exact h.vnodeRef
  · rw [hframe, if_pos rfl]

theorem ofNat_eq_zero (hn : n < 2 ^ 32) (h : BitVec.ofNat 32 n = 0) : n = 0 := by
  have := congrArg BitVec.toNat h
  rwa [toNat_ofNat, mod_eq_of_lt hn] at this

theorem mmuUnmap_eq (hp : s.pteAt map vaddr = some p) :
    s.mmuUnmap map vaddr =
      if (((s.dropRef p.frame).erasePte map vaddr).frame p.frame).refCount = 0 then
        ((s.dropRef p.frame).erasePte map vaddr).pageFree p.frame
      else (s.dropRef p.frame).erasePte map vaddr := by
  rw [State.mmuUnmap, hp]
  dsimp only [State.release]
  split_ifs with h1 h2 h2
  · rfl
  · exact absurd h1 h2
  · exact absurd h2 h1
  · rfl

theorem uses_lt (h : Books s) (hfew : Few s n) (f : ℕ) : s.uses f + n < 2 ^ 32 := by
  have hptes := count_le_length (a := f) (l := s.ptes.map Pte.frame)
  rw [length_map] at hptes
  have hcache : ((Slots.entries s.slots).map SharedPageEntry.phys).count f ≤ 1 := by
    by_cases hmem : f ∈ (Slots.entries s.slots).map SharedPageEntry.phys
    · obtain ⟨e, he, rfl⟩ := mem_map.mp hmem
      exact Nat.le_of_eq (h.count_phys he)
    · rw [count_eq_zero_of_not_mem hmem]
      exact zero_le 1
  unfold Few at hfew
  unfold State.uses
  omega

/-- The cache as it was, and at most `n` new page table entries. -/
structure Leaves (n : ℕ) (s t : State) : Prop where
  books : Books t
  slots : t.slots = s.slots
  length : t.ptes.length ≤ s.ptes.length + n

theorem Leaves.trans {m : ℕ} {t u : State} (h : Leaves m s t) (h' : Leaves n t u) :
    Leaves (m + n) s u :=
  ⟨h'.books, h'.slots.trans h.slots, by have := h.length; have := h'.length; omega⟩

theorem Leaves.few {m : ℕ} (h : Leaves m s t) (hfew : Few s (m + n)) : Few t n := by
  have := h.length
  unfold Few at hfew ⊢
  omega

theorem refl (h : Books s) : Leaves 0 s s := ⟨h, rfl, Nat.le_refl _⟩

theorem mmuUnmap (h : Books s) (hfew : Few s 0) (map vaddr : ℕ) :
    Leaves 0 s (s.mmuUnmap map vaddr) := by
  cases hp : s.pteAt map vaddr with
  | none =>
    rw [State.mmuUnmap, hp]
    exact h.refl
  | some p =>
    obtain ⟨hbooks, hcount, hlt⟩ := h.dropPte hp (h.uses_lt hfew p.frame) rfl
    have hle : ((s.dropRef p.frame).erasePte map vaddr).ptes.length ≤ s.ptes.length :=
      length_eraseP_le
    rw [mmuUnmap_eq hp]
    split_ifs with hzero
    · rw [hcount] at hzero
      exact ⟨hbooks.pageFree (ofNat_eq_zero hlt hzero), rfl, hle⟩
    · exact ⟨hbooks, rfl, hle⟩

theorem use_dropRef (s : State) (f g : ℕ) : ((s.dropRef f).frame g).use = (s.frame g).use := by
  rw [State.dropRef, State.frame_setFrame]
  by_cases hg : g = f
  · rw [if_pos hg, hg]
  · rw [if_neg hg]

theorem mmuMap4k (h : Books s) (hfew : Few s 0) (hf : Use.Mappable (s.frame f).use)
    (map vaddr : ℕ) (pteOk : Bool) : Leaves 1 s (s.mmuMap4k map vaddr f pteOk).2 := by
  unfold State.mmuMap4k
  by_cases hok : pteOk = true
  · rw [if_neg (not_not.mpr hok)]
    cases hp : s.pteAt map vaddr with
    | none => exact ⟨h.addPte hf map vaddr, rfl, Nat.le_refl _⟩
    | some p =>
      have hbooks := (h.dropPte hp (h.uses_lt hfew p.frame) rfl).1
      have huse : (((s.dropRef p.frame).erasePte map vaddr).frame f).use = (s.frame f).use :=
        use_dropRef s p.frame f
      refine ⟨hbooks.addPte (by rwa [huse]) map vaddr, rfl, succ_le_succ ?_⟩
      exact length_eraseP_le
  · rw [if_pos hok]
    exact ⟨h, rfl, le_succ _⟩

theorem unmapRange (h : Books s) (hfew : Few s 0) (map start n : ℕ) :
    Leaves 0 s (s.unmapRange map start n) := by
  induction n with
  | zero => exact h.refl
  | succ n ih => exact ih.trans (ih.books.mmuUnmap (ih.few hfew) map (start + n))

theorem unmapAll (ps : List Pte) (h : Books s) (hfew : Few s 0) :
    Leaves 0 s (ps.foldl (fun s p => s.mmuUnmap p.map p.vaddr) s) := by
  induction ps generalizing s with
  | nil => exact h.refl
  | cons p ps ih =>
    have hstep := h.mmuUnmap hfew p.map p.vaddr
    exact hstep.trans (ih hstep.books (hstep.few hfew))

section
variable (h : Books s)
include h

theorem mappable_of_entry {e : SharedPageEntry} (he : e ∈ Slots.entries s.slots) :
    Use.Mappable (s.frame e.phys).use := by
  rw [h.holds e he]
  trivial

theorem mapThenUnmap (hfew : Few s 1) (hf : Use.Mappable (s.frame f).use)
    (map new old : ℕ) (pteOk : Bool) :
    Leaves 1 s ((s.mmuMap4k map new f pteOk).2.mmuUnmap map old) := by
  have hmap := h.mmuMap4k (hfew.of_le (zero_le 1)) hf map new pteOk
  exact hmap.trans (hmap.books.mmuUnmap (hmap.few hfew) map old)

theorem movePage (hfew : Few s 1) (map old new : ℕ) (file : Option FilePage)
    (env : ℕ → GrowEnv) (k : ℕ) : Leaves 1 s (s.movePage map old new file env k) := by
  have hnew := h.mmuUnmap (hfew.of_le (zero_le 1)) map (new + k)
  have hfew' : Few (s.mmuUnmap map (new + k)) 1 := hnew.few (by rwa [zero_add])
  suffices hrest : Leaves 1 (s.mmuUnmap map (new + k)) (s.movePage map old new file env k) by
    have := hnew.trans hrest
    rwa [zero_add] at this
  have hold := hnew.books.mmuUnmap (hfew'.of_le (zero_le 1)) map (old + k)
  have hleave : Leaves 1 (s.mmuUnmap map (new + k))
      ((s.mmuUnmap map (new + k)).mmuUnmap map (old + k)) :=
    ⟨hold.books, hold.slots, le_succ_of_le hold.length⟩
  unfold State.movePage
  dsimp only
  split_ifs with hpaddr
  · cases hp : (s.mmuUnmap map (new + k)).pteAt map (old + k) with
    | none =>
      rw [hp] at hpaddr
      exact absurd rfl hpaddr
    | some p =>
      exact hnew.books.mapThenUnmap hfew' (hnew.books.mappable_of_pte (mem_of_pteAt hp).1) ..
  · cases file with
    | none => exact hleave
    | some page =>
      dsimp only
      cases hfind : Slots.find (fun e => decide (e.page = page.plus k))
          (s.mmuUnmap map (new + k)).slots with
      | none => exact hleave
      | some e =>
        split_ifs with hphys
        · have he := (Slots.find_eq_some hfind).1
          exact hnew.books.mapThenUnmap hfew' (hnew.books.mappable_of_entry he) ..
        · exact hleave

theorem moveRange (map old new : ℕ) (file : Option FilePage) (env : ℕ → GrowEnv)
    (n : ℕ) (hfew : Few s n) : Leaves n s (s.moveRange map old new file env n) := by
  induction n with
  | zero => exact h.refl
  | succ n ih =>
    have hrest := ih (hfew.of_le (le_succ n))
    exact hrest.trans (hrest.books.movePage (hrest.few hfew) map old new file env n)

theorem mremapLookup (hpage : Cached s page) :
    ∃ e ∈ Slots.entries s.slots, e.phys ≠ 0 ∧ s.mremapLookup page = (e.phys, s) := by
  obtain ⟨e, he, heq, hz⟩ := hpage
  have hfind : Slots.find (fun e => decide (e.page = page)) s.slots = some e := by
    cases hf : Slots.find (fun e => decide (e.page = page)) s.slots with
    | none =>
      have hnone := Slots.find_eq_none.mp hf e he
      exact absurd heq (of_decide_eq_false hnone)
    | some e' =>
      obtain ⟨he', heq'⟩ := Slots.find_eq_some hf
      exact congrArg some
        (inj_on_of_nodup_map h.once he' he ((of_decide_eq_true heq').trans heq.symm))
  refine ⟨e, he, hz, ?_⟩
  rw [State.mremapLookup, Slots.scan_of_forall_not h.entriesBusy.not_stale, hfind]
  rfl

theorem growShared {env : GrowEnv} {go : Bool} (hfew : Few s 0)
    (hpage : Cached s page) (hs : s.growShared map vaddr page env = some (go, s')) :
    Leaves 1 s s' := by
  obtain ⟨e, he, hz, hlook⟩ := h.mremapLookup hpage
  unfold State.growShared at hs
  rw [hlook] at hs
  rw [if_pos hz, some.injEq] at hs
  have hmap := h.mmuMap4k hfew (h.mappable_of_entry he) map vaddr env.pteOk
  rwa [hs] at hmap

theorem growPrivate {env : GrowEnv} {go : Bool} (hfew : Few s 0)
    (hs : s.growPrivate map vaddr env = some (go, s')) : Leaves 1 s s' := by
  unfold State.growPrivate at hs
  cases hframe : env.frame with
  | none =>
    rw [hframe] at hs
    cases hs
    exact ⟨h, rfl, le_succ _⟩
  | some f =>
    rw [hframe] at hs
    dsimp only at hs
    cases halloc : s.pageAlloc f .anon with
    | none =>
      rw [halloc] at hs
      cases hs
    | some t =>
      obtain ⟨hbooks, huses, hf, hptes, hslots⟩ := h.pageAlloc halloc
      have hleave : Leaves 0 s t := ⟨hbooks, hslots, Nat.le_of_eq (by rw [hptes]; rfl)⟩
      rw [halloc] at hs
      split_ifs at hs with hok
      · have hmap := hbooks.mmuMap4k (hleave.few hfew) (f := f) (by rw [hf]; trivial) map vaddr true
        rw [some.inj hs] at hmap
        have := hleave.trans hmap
        rwa [zero_add] at this
      · cases hs
        exact ⟨hbooks.pageFree huses, hslots, by rw [← hptes]; exact le_succ _⟩

end

theorem cached_of_slots (h : Cached s page) (hslots : t.slots = s.slots) :
    Cached t page := by
  rwa [Cached, hslots]

variable {file : Option FilePage}

theorem grownCached_of_slots {k : ℕ}
    (h : GrownCached s file k n) (hslots : t.slots = s.slots) : GrownCached t file k n := by
  cases file with
  | none => trivial
  | some page => exact fun i hi => cached_of_slots (h i hi) hslots

theorem grownCached_tail {k : ℕ} (h : GrownCached s file k (n + 1)) (hslots : t.slots = s.slots) :
    GrownCached t file (k + 1) n := by
  cases file with
  | none => trivial
  | some page =>
    intro i hi
    have hnext := cached_of_slots (h (i + 1) (succ_lt_succ hi)) hslots
    rwa [← add_assoc, Nat.add_right_comm] at hnext

variable {env : ℕ → GrowEnv}

theorem pteAt_congr (h : t.ptes = s.ptes) (map vaddr : ℕ) :
    t.pteAt map vaddr = s.pteAt map vaddr := by
  rw [State.pteAt, State.pteAt, h]

variable {blank : ℕ}

section
variable (h : Books s)
include h

theorem growInPlace {old k : ℕ} (hfew : Few s n) (hcached : GrownCached s file k n)
    (hs : State.growInPlace map old file env n k s = some s') : Leaves n s s' := by
  induction n generalizing s k with
  | zero =>
    cases hs
    exact h.refl
  | succ n ih =>
    unfold State.growInPlace at hs
    have hpage {go : Bool} {t : State} (ht : s.growPage map old file env k = some (go, t)) :
        Leaves 1 s t := by
      cases file with
      | none => exact h.growPrivate (hfew.of_le (zero_le _)) ht
      | some page =>
        exact h.growShared (hfew.of_le (zero_le _)) (hcached 0 (succ_pos n)) ht
    split at hs
    · cases hs
    · next t ht =>
      cases hs
      have hleave := hpage ht
      exact ⟨hleave.books, hleave.slots, by have := hleave.length; omega⟩
    · next t ht =>
      have hleave := hpage ht
      have hrest := ih hleave.books (hleave.few (by rwa [add_comm])) (grownCached_tail hcached hleave.slots) hs
      have := hleave.trans hrest
      rwa [add_comm] at this

theorem growMoved {new k : ℕ} (hfew : Few s n) (hcached : GrownCached s file k n)
    (hs : State.growMoved map new file env n k s = some s') : Leaves n s s' := by
  induction n generalizing s k with
  | zero =>
    cases hs
    exact h.refl
  | succ n ih =>
    unfold State.growMoved at hs
    have hunmap := h.mmuUnmap (hfew.of_le (zero_le _)) map (new + k)
    have hfew' : Few (s.mmuUnmap map (new + k)) (n + 1) := hunmap.few (by rwa [zero_add])
    cases file with
    | none =>
      have hrest := ih hunmap.books (hfew'.of_le (le_succ n)) (grownCached_tail hcached hunmap.slots) hs
      have hall := hunmap.trans hrest
      exact ⟨hall.books, hall.slots, by have := hall.length; omega⟩
    | some page =>
      dsimp only at hs
      have hpage := cached_of_slots (hcached 0 (succ_pos n)) hunmap.slots
      split at hs
      · cases hs
      · next t ht =>
        cases hs
        have hleave := hunmap.trans
          (hunmap.books.growShared (hfew'.of_le (zero_le _)) hpage ht)
        exact ⟨hleave.books, hleave.slots, by have := hleave.length; omega⟩
      · next t ht =>
        have hleave := hunmap.trans
          (hunmap.books.growShared (hfew'.of_le (zero_le _)) hpage ht)
        have hrest := ih hleave.books (hleave.few (by rwa [add_comm]))
          (grownCached_tail hcached hleave.slots) hs
        have := hleave.trans hrest
        rwa [add_comm] at this

theorem sysMremap {c : Mremap} (hok : MremapOk s c) (hs : s.sysMremap c = some s') :
    Books s' := by
  obtain ⟨hfew, hcached⟩ := hok
  unfold State.sysMremap at hs
  split_ifs at hs with heq hlt hfree hmove
  · cases hs
    exact h
  · cases hs
    exact (h.unmapRange (hfew.of_le (zero_le _)) ..).books
  · exact (h.growInPlace (hfew.of_le (sub_le _ _)) hcached hs).books
  · have hold := h.moveRange c.map c.old c.new c.file c.env c.oldPages (hfew.of_le (by omega))
    have hfew' : Few (s.moveRange c.map c.old c.new c.file c.env c.oldPages)
        (c.newPages - c.oldPages) := hold.few (hfew.of_le (by omega))
    exact (hold.books.growMoved hfew' (grownCached_of_slots hcached hold.slots) hs).books
  · cases hs
    exact h

theorem register (hf : (s.frame f).use = some (.file page)) :
    Books (s.vmaSharedRegister page f) ∧ (s.vmaSharedRegister page f).ptes = s.ptes ∧
      ((s.vmaSharedRegister page f).frame f).use = some (.file page) := by
  rcases h.entriesBusy.register_cases page f with ⟨hsame, -⟩ | ⟨hnew, slots, hins, hreg⟩
  · rw [hsame]
    exact ⟨h, rfl, hf⟩
  · rw [hreg]
    refine ⟨h.addEntry hf hnew hins, rfl, ?_⟩
    rw [State.addRef, State.frame_setFrame, if_pos rfl]
    exact hf

theorem installPte (hf : Use.Mappable (s.frame f).use)
    (hnone : s.pteAt map vaddr = none) : Books (s.installPte map vaddr f true) := by
  rw [State.installPte, if_pos ⟨rfl, hnone⟩]
  exact h.addPte hf map vaddr

theorem zeroFault {pteOk : Bool}
    (hs : s.zeroFault map vaddr blank pteOk = some s') : Books s' := by
  obtain ⟨t, ht, rfl⟩ := map_eq_some_iff.mp hs
  obtain ⟨hbooks, huses, hframe, -, -⟩ := h.pageAlloc ht
  unfold State.installPte
  split_ifs
  · exact hbooks.addPte (by rw [hframe]; trivial) map vaddr
  · exact hbooks.pageFree huses

theorem readFault {readOk : Bool} (huses : s.uses f = 0)
    (hframe : s.frame f = ⟨false, 0, some .kernel⟩) (hnone : s.pteAt map vaddr = none)
    (hs : s.readFault map vaddr page f blank readOk true = some s') : Books s' := by
  unfold State.readFault at hs
  by_cases hread : readOk = true
  · have hfill := h.fill huses (by rw [hframe]) (by rw [hframe]) page
    have huse : ((s.fill f page).frame f).use = some (.file page) := by
      rw [State.fill, State.frame_setFrame, if_pos rfl]
    obtain ⟨hreg, hptes, hmapped⟩ := hfill.register huse
    split_ifs at hs with hzero
    · exact hreg.zeroFault hs
    · cases hs
      refine hreg.installPte (by rw [hmapped]; trivial) ?_
      rw [pteAt_congr (s := s) hptes]
      exact hnone
  · rw [if_neg hread] at hs
    exact (h.pageFree huses).zeroFault hs

theorem sharedFault {frame : Option ℕ} {readOk : Bool}
    (hs : s.sharedFault map vaddr page frame blank readOk true = some s') : Books s' := by
  unfold State.sharedFault at hs
  split_ifs at hs with hpte
  have hnone : s.pteAt map vaddr = none := not_not.mp hpte
  cases frame with
  | none => exact h.zeroFault hs
  | some f =>
    dsimp only at hs
    cases halloc : s.pageAlloc f .kernel with
    | none =>
      rw [halloc] at hs
      cases hs
    | some t =>
      obtain ⟨hbooks, huses, hframe, hptes, -⟩ := h.pageAlloc halloc
      have hnone' : t.pteAt map vaddr = none := (pteAt_congr hptes map vaddr).trans hnone
      rw [halloc] at hs
      dsimp only at hs
      rcases hbooks.entriesBusy.lookup_cases page with ⟨hmiss, -⟩ | ⟨e, he, -, hhit⟩
      · rw [hmiss] at hs
        exact hbooks.readFault huses hframe hnone' hs
      · rw [hhit] at hs
        split_ifs at hs with hphys
        · cases hs
          have hfree := hbooks.pageFree huses
          exact hfree.installPte (hfree.mappable_of_entry he) hnone'
        · exact hbooks.readFault huses hframe hnone' hs

end

end Books

theorem Books.step {s s' : State} {e : CacheEvent} (h : Books s) (hok : CacheOk s e)
    (hs : cacheStep s e = some s') : Books s' := by
  cases e with
  | fault map vaddr page frame blank readOk pteOk =>
    obtain rfl : pteOk = true := hok
    exact h.sharedFault hs
  | lookup page =>
    cases hs
    rcases h.entriesBusy.lookup_cases page with ⟨hmiss, -⟩ | ⟨e, -, -, hhit⟩
    · rwa [hmiss]
    · rwa [hhit]
  | readPage f page =>
    obtain ⟨t, ht, rfl⟩ := map_eq_some_iff.mp hs
    obtain ⟨hbooks, huses, hframe, -, -⟩ := h.pageAlloc ht
    exact hbooks.fill huses (by rw [hframe]) (by rw [hframe]) page
  | register page f =>
    simp only [cacheStep] at hs
    split_ifs at hs with huse
    cases hs
    exact (h.register huse).1
  | munmap map start pages =>
    cases hs
    exact (h.unmapRange hok map start pages).books
  | mremap call => exact h.sysMremap hok hs
  | destroy map =>
    cases hs
    exact (h.unmapAll _ hok).books
  | alloc f first =>
    simp only [cacheStep, State.allocOther] at hs
    split_ifs at hs with hnone
    cases hs
    exact h.setFrame (h.unused f (by rw [hnone]; exact id)) False.elim False.elim
  | discard f =>
    simp only [cacheStep] at hs
    split_ifs at hs with huse
    cases hs
    exact h.pageFree huse.2

/-- An empty cache, no page mapped or under way. -/
structure State.Fresh (s : State) : Prop where
  slots : s.slots = []
  ptes : s.ptes = []
  vnRefs : ∀ vn, s.vnRefs vn = 0
  frames : ∀ f, ¬Use.Mappable (s.frame f).use

theorem State.Fresh.books {s : State} (h : s.Fresh) : Books s := by
  have hempty : Slots.entries s.slots = [] := by
    rw [h.slots, Slots.entries, reduceOption_nil]
  refine ⟨?_, fun e he => ?_, fun f hf => absurd hf (h.frames f), fun f _ => ?_,
    fun f hf => absurd hf (h.frames f), fun vn => ?_⟩
  · rw [hempty]
    exact nodup_nil
  · rw [hempty] at he
    cases he
  · rw [State.uses, h.ptes, hempty]
    rfl
  · rw [hempty]
    exact h.vnRefs vn

end Doppio.SharedPages
