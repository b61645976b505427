import Doppio.Library.Loop
import Doppio.Mmu.Pmm
import Doppio.Mmu.Pte

/-! The page tables of `kernel/arch/x86_64/mmu.c`. A table is named by its page, and memory is seen
through the direct map, so `phys_to_virt` and `virt_to_phys` do not appear. A page is used as a
table or as bytes. `none` is a null pointer that is followed, or a panic. -/
namespace Doppio
open Function
open Loop

structure Mmu where
  pmm : Pmm
  /-- The entries of the table in a page. -/
  entry : ℕ → ℕ → PtEntry
  /-- The bytes of physical memory. -/
  byte : ℕ → BitVec 8
  /-- `g_kernel_pagemap`. -/
  kernelMap : ℕ

def mmuFlagsWrite : BitVec 64 := 1#64 <<< 1
def mmuFlagsExec : BitVec 64 := 1#64 <<< 2
def mmuFlagsUser : BitVec 64 := 1#64 <<< 3
def mmuFlagsNocache : BitVec 64 := 1#64 <<< 4
def mmuFlagsShared : BitVec 64 := 1#64 <<< 5

def mmuToX86Flags (prot : BitVec 64) : PtEntry :=
  let flags := ptePresent
  let flags := if prot &&& mmuFlagsWrite ≠ 0 then flags ||| pteWritable else flags
  let flags := if prot &&& mmuFlagsUser ≠ 0 then flags ||| pteUser else flags
  let flags := if prot &&& mmuFlagsNocache ≠ 0 then flags ||| (ptePcd ||| ptePwt) else flags
  let flags := if prot &&& mmuFlagsShared ≠ 0 then flags ||| pteShared else flags
  if prot &&& mmuFlagsExec = 0 then flags ||| pteNx else flags

def pml4Idx (v : ℕ) : ℕ := v >>> 39 &&& 0x1FF
def pdptIdx (v : ℕ) : ℕ := v >>> 30 &&& 0x1FF
def pdIdx (v : ℕ) : ℕ := v >>> 21 &&& 0x1FF
def ptIdx (v : ℕ) : ℕ := v >>> 12 &&& 0x1FF

def PtEntry.addr (e : PtEntry) : ℕ := (e &&& pageAddrMask).toNat

namespace Mmu

section
variable (s : Mmu)

def setEntry (t i : ℕ) (e : PtEntry) : Mmu :=
  { s with entry := update s.entry t (update (s.entry t) i e) }

def zeroPage (p : ℕ) : Mmu :=
  { s with
    entry := update s.entry p fun _ => 0
    byte := fun a => if a / pageSize = p then 0 else s.byte a }

def copyPages (dst src n : ℕ) : Mmu :=
  { s with
    entry := fun p => if dst ≤ p ∧ p < dst + n then s.entry (p - dst + src) else s.entry p
    byte := fun a =>
      if dst * pageSize ≤ a ∧ a < (dst + n) * pageSize then
        s.byte (a - dst * pageSize + src * pageSize)
      else s.byte a }

def modifyPage (p : ℕ) (f : Page → Page) : Mmu := { s with pmm := s.pmm.modify p f }

/-- `page->ref_count++` for the page of an address, if there is one. -/
def incRef (phys : ℕ) : Mmu :=
  match s.pmm.physToPage phys with
  | some p => s.modifyPage p fun q => { q with refCount := q.refCount + 1 }
  | none => s

/-- `if (page && page->ref_count > 0) page->ref_count--`. -/
def decRef (phys : ℕ) : Mmu :=
  match s.pmm.physToPage phys with
  | some p =>
    if 0 < (s.pmm.page p).refCount then
      s.modifyPage p fun q => { q with refCount := q.refCount - 1 }
    else s
  | none => s

/-- The count drops; at zero the page is freed. -/
def dropRef (phys order : ℕ) : Mmu :=
  match s.pmm.physToPage phys with
  | some p =>
    let s := s.decRef phys
    if (s.pmm.page p).refCount = 0 then { s with pmm := s.pmm.pmmFreePages p order } else s
  | none => s

def pageAlloc (order : ℕ) : Option (Mmu × Option ℕ) := do
  let (pmm, page) ← s.pmm.pmmAllocPages order
  pure ({ s with pmm := pmm }, page)

def pageFree (phys order : ℕ) : Option Mmu := do
  let p ← s.pmm.physToPage phys
  pure { s with pmm := s.pmm.pmmFreePages p order }

def newTable (t i : ℕ) : Option (Mmu × Bool) := do
  match ← s.pageAlloc 0 with
  | (s, none) => pure (s, false)
  | (s, some p) =>
    let s := s.zeroPage p
    let s := s.modifyPage p fun q => { q with refCount := 0 }
    let s := s.incRef (t * pageSize)
    pure (s.setEntry t i (PtEntry.ofPage p ||| ptePresent ||| pteWritable ||| pteUser), true)

/-- One turn of `vmm_get_pte`: the table below the entry `i` of `t`. -/
def vmmNextTable (t i : ℕ) (allocate : Bool) : Option (Mmu × Option ℕ) := do
  let next (s : Mmu) : Mmu × Option ℕ :=
    if (s.entry t i).has pteHuge then (s, none) else (s, some (s.entry t i).frame)
  if (s.entry t i).has ptePresent then
    if allocate then pure (next (s.setEntry t i (s.entry t i ||| (pteWritable ||| pteUser))))
    else pure (next s)
  else if allocate then
    match ← s.newTable t i with
    | (s, false) => pure (s, none)
    | (s, true) => pure (next s)
  else pure (s, none)

end

def vmmGetPteLoop (allocate : Bool) : List ℕ → Mmu → ℕ → Option (Mmu × Option ℕ)
  | [], s, t => some (s, some t)
  | i :: is, s, t => do
    match ← s.vmmNextTable t i allocate with
    | (s, none) => pure (s, none)
    | (s, some t) => vmmGetPteLoop allocate is s t

/-- The table and index of the entry for a page. -/
def vmmGetPte (s : Mmu) (pml4 virt : ℕ) (allocate : Bool) : Option (Mmu × Option (ℕ × ℕ)) := do
  let (s, pt) ← vmmGetPteLoop allocate [pml4Idx virt, pdptIdx virt, pdIdx virt] s pml4
  pure (s, pt.map fun t => (t, ptIdx virt))

def vmmFreePt (s : Mmu) (pt : ℕ) : Option Mmu := do
  let s ← forUpTo (fun i s =>
    let e := s.entry pt i
    if e.has ptePresent then some ((s.decRef e.addr).setEntry pt i 0) else some s) 512 s
  s.pageFree (pt * pageSize) 0

/-- The loop of `vmm_map_huge` over the upper two tables. -/
def vmmMapHugeLoop : List ℕ → Mmu → ℕ → Option (Mmu × Option ℕ)
  | [], s, t => some (s, some t)
  | i :: is, s, t =>
    if (s.entry t i).has ptePresent then vmmMapHugeLoop is s (s.entry t i).frame
    else do
      match ← s.newTable t i with
      | (s, false) => pure (s, none)
      | (s, true) => vmmMapHugeLoop is s (s.entry t i).frame

def vmmMapHuge (s : Mmu) (pml4 virt phys : ℕ) (flags : PtEntry) : Option (Mmu × Bool) :=
  if virt &&& 0x1FFFFF ≠ 0 ∨ phys &&& 0x1FFFFF ≠ 0 then some (s, false)
  else do
    match ← vmmMapHugeLoop [pml4Idx virt, pdptIdx virt] s pml4 with
    | (s, none) => pure (s, false)
    | (s, some pd) =>
      let e := s.entry pd (pdIdx virt)
      let s ←
        if e.has ptePresent then
          if e.has pteHuge then some (s.decRef e.addr) else s.vmmFreePt e.frame
        else some (s.incRef (pd * pageSize))
      let s := s.setEntry pd (pdIdx virt)
        ((BitVec.ofNat 64 phys &&& pageAddrMask) ||| flags ||| pteHuge)
      pure (s.incRef phys, true)

def vmmMap (s : Mmu) (pml4 virt phys : ℕ) (flags : PtEntry) : Option (Mmu × Bool) := do
  match ← s.vmmGetPte pml4 virt true with
  | (s, none) => pure (s, false)
  | (s, some (t, i)) =>
    let e := s.entry t i
    let s := if e.has ptePresent then s.decRef e.addr else s.incRef (t * pageSize)
    let s := s.setEntry t i ((BitVec.ofNat 64 phys &&& pageAddrMask) ||| flags)
    pure (s.incRef phys, true)

def vmmPtIsEmpty (s : Mmu) (t : ℕ) : Bool :=
  (List.range 512).all fun i => !(s.entry t i).has ptePresent

/-- The end of `vmm_unmap`: free a table that became empty, then those above. An item is a table
with the table and index of its entry. -/
def vmmPrune : List (ℕ × ℕ × ℕ) → Mmu → Option Mmu
  | [], s => some s
  | (t, up, i) :: rest, s =>
    if s.vmmPtIsEmpty t then do
      let s := s.decRef (up * pageSize)
      let s ← s.pageFree (t * pageSize) 0
      vmmPrune rest (s.setEntry up i 0)
    else some s

variable (s : Mmu)

def vmmUnmap (pml4 virt : ℕ) : Option Mmu :=
  let e0 := s.entry pml4 (pml4Idx virt)
  let pdpt := e0.frame
  let e1 := s.entry pdpt (pdptIdx virt)
  let pd := e1.frame
  let e2 := s.entry pd (pdIdx virt)
  let pt := e2.frame
  let e3 := s.entry pt (ptIdx virt)
  let above := [(pd, pdpt, pdptIdx virt), (pdpt, pml4, pml4Idx virt)]
  if !e0.has ptePresent then some s
  else if !e1.has ptePresent then some s
  else if !e2.has ptePresent then some s
  else if e2.has pteHuge then
    vmmPrune above ((s.dropRef e2.addr 9).setEntry pd (pdIdx virt) 0)
  else if !e3.has ptePresent then some s
  else vmmPrune ((pt, pd, pdIdx virt) :: above) ((s.dropRef e3.addr 0).setEntry pt (ptIdx virt) 0)

/-- `vmm_get_phys`, and `mmu_translate` on a map that is not null. -/
def vmmGetPhys (pml4 virt : ℕ) : ℕ :=
  let e0 := s.entry pml4 (pml4Idx virt)
  let e1 := s.entry e0.frame (pdptIdx virt)
  let e2 := s.entry e1.frame (pdIdx virt)
  let e3 := s.entry e2.frame (ptIdx virt)
  if !e0.has ptePresent then 0
  else if !e1.has ptePresent then 0
  else if !e2.has ptePresent then 0
  else if e2.has pteHuge then (e2 &&& 0xFFFFFFFE00000#64).toNat + (virt &&& 0x1FFFFF)
  else if !e3.has ptePresent then 0
  else e3.addr + (virt &&& (pageSize - 1))

/-- An empty map with the kernel half. -/
def vmmCreateUserMap : Option (Mmu × Option ℕ) := do
  match ← s.pageAlloc 0 with
  | (s, none) => pure (s, none)
  | (s, some p) =>
    let s := s.zeroPage p
    let entries := fun i => if 256 ≤ i ∧ i < 512 then s.entry s.kernelMap i else s.entry p i
    pure ({ s with entry := update s.entry p entries }, some p)

def destroyPt (pt : ℕ) : Option Mmu := do
  let s ← forUpTo (fun l s =>
    let pte := s.entry pt l
    if pte.has ptePresent then some (s.dropRef pte.addr 0) else some s) 512 s
  s.pageFree (pt * pageSize) 0

def destroyPd (pd : ℕ) : Option Mmu := do
  let s ← forUpTo (fun k s =>
    let pde := s.entry pd k
    if !pde.has ptePresent then some s
    else if pde.has pteHuge then some (s.dropRef pde.addr 9)
    else s.destroyPt pde.frame) 512 s
  s.pageFree (pd * pageSize) 0

def destroyPdpt (pdpt : ℕ) : Option Mmu := do
  let s ← forUpTo (fun j s =>
    let pdpte := s.entry pdpt j
    if !pdpte.has ptePresent ∨ pdpte.has pteHuge then some s
    else s.destroyPd pdpte.frame) 512 s
  s.pageFree (pdpt * pageSize) 0

/-- Up to the reload of `cr3`. -/
def vmmDestroyMap (pml4 : ℕ) : Option Mmu :=
  if pml4 = s.kernelMap then some s
  else do
    let s ← forUpTo (fun i s =>
      let pml4e := s.entry pml4 i
      if !pml4e.has ptePresent ∨ pml4e.has pteHuge then some s
      else s.destroyPdpt pml4e.frame) 256 s
    s.pageFree (pml4 * pageSize) 0

def mmuMap4k (map vaddr paddr : ℕ) (prot : BitVec 64) : Option (Mmu × Bool) :=
  s.vmmMap map vaddr paddr (mmuToX86Flags prot)

def mmuMap (map vaddr paddr : ℕ) (prot : BitVec 64) : Option (Mmu × Bool) :=
  if vaddr % (512 * pageSize) = 0 ∧ paddr % (512 * pageSize) = 0 then
    s.vmmMapHuge map vaddr paddr (mmuToX86Flags prot)
  else s.vmmMap map vaddr paddr (mmuToX86Flags prot)

/-- `mmu_split_huge_page_locked`, without its ignored result. -/
def mmuSplitHugePage (map vaddr : ℕ) : Option Mmu :=
  let e0 := s.entry map (pml4Idx vaddr)
  let e1 := s.entry e0.frame (pdptIdx vaddr)
  let pd := e1.frame
  let e2 := s.entry pd (pdIdx vaddr)
  if e0.has ptePresent && e1.has ptePresent && e2.has ptePresent && e2.has pteHuge then do
    let hugeFlags := e2 &&& ~~~(pageAddrMask ||| pteHuge)
    match ← s.pageAlloc 0 with
    | (s, none) => pure s
    | (s, some pt) =>
      let s ← forUpTo (fun j s =>
        let pagePhys := (e2 &&& pageAddrMask) + BitVec.ofNat 64 (j * pageSize)
        some ((s.setEntry pt j (pagePhys ||| hugeFlags)).incRef pagePhys.toNat)) 512
        (s.zeroPage pt)
      let s := s.decRef e2.addr
      let s := s.modifyPage pt fun q => { q with refCount := 0 }
      let s := s.incRef (pd * pageSize)
      pure (s.setEntry pd (pdIdx vaddr)
        (PtEntry.ofPage pt ||| ptePresent ||| pteWritable ||| pteUser))
  else some s

def protectedPte (pte : PtEntry) (prot : BitVec 32) : PtEntry :=
  let flags := ptePresent
  let flags := if pte.has pteUser then flags ||| pteUser else flags
  let flags := if prot &&& 0x2 ≠ 0 then flags ||| pteWritable else flags
  let flags := if prot &&& 0x4 = 0 then flags ||| pteNx else flags
  let flags := if pte.has pteShared then flags ||| pteShared else flags
  let flags := if pte.has pteCow then flags ||| pteCow else flags
  (pte &&& pageAddrMask) ||| flags

def mmuProtectPage (map vaddr : ℕ) (prot : BitVec 32) : Option Mmu := do
  let (s, pte) ← s.vmmGetPte map vaddr false
  let (s, pte) ← match pte with
    | some _ => some (s, pte)
    | none => do
      let s ← s.mmuSplitHugePage map vaddr
      s.vmmGetPte map vaddr false
  match pte with
  | none => pure s
  | some (t, i) =>
    if (s.entry t i).has ptePresent then
      pure (s.setEntry t i (protectedPte (s.entry t i) prot))
    else pure s

def pageAddress (i j k l : ℕ) : ℕ := i <<< 39 ||| j <<< 30 ||| k <<< 21 ||| l <<< 12

def cloneFlags (pte : PtEntry) : PtEntry :=
  let flags := pte &&& ~~~pageAddrMask
  if flags.has pteWritable && !flags.has pteShared then (flags &&& ~~~pteWritable) ||| pteCow
  else flags

/-- The innermost loop of `mmu_clone_map`. -/
def clonePt (child i j k pt : ℕ) : Option (Mmu × Bool) :=
  forUntil (fun l s =>
    let pte := s.entry pt l
    if !pte.has ptePresent then some (s, false)
    else do
      let s :=
        if pte.has pteWritable && !pte.has pteShared then
          s.setEntry pt l ((pte &&& pageAddrMask) ||| cloneFlags pte)
        else s
      let (s, _) ← s.vmmMap child (pageAddress i j k l) pte.addr (cloneFlags pte)
      pure (s, false)) 512 s

/-- The loop over a page directory: a huge page is copied; without memory the function is left. -/
def clonePd (child i j pd : ℕ) : Option (Mmu × Bool) :=
  forUntil (fun k s =>
    let pde := s.entry pd k
    if !pde.has ptePresent then some (s, false)
    else if pde.has pteHuge then do
      match ← s.pageAlloc 9 with
      | (s, none) => pure (s, true)
      | (s, some childPage) =>
        let s := s.copyPages childPage pde.frame 512
        let (s, _) ← s.vmmMapHuge child (pageAddress i j k 0) (Pmm.pageToPhys childPage)
          (pde &&& ~~~pageAddrMask)
        pure (s, false)
    else s.clonePt child i j k pde.frame) 512 s

def clonePdpt (child i pdpt : ℕ) : Option (Mmu × Bool) :=
  forUntil (fun j s =>
    let pdpte := s.entry pdpt j
    if !pdpte.has ptePresent then some (s, false) else s.clonePd child i j pdpte.frame) 512 s

def mmuCloneMap (parentMap : ℕ) : Option (Mmu × Option ℕ) := do
  match ← s.vmmCreateUserMap with
  | (s, none) => pure (s, none)
  | (s, some child) =>
    let (s, left) ← forUntil (fun i s =>
      let pml4e := s.entry parentMap i
      if !pml4e.has ptePresent then some (s, false) else s.clonePdpt child i pml4e.frame) 256 s
    if left then do
      let s ← s.vmmDestroyMap child
      pure (s, none)
    else pure (s, some child)

/-- The entry after a write fault: writable, no longer copy-on-write. -/
def writablePte (page pte : PtEntry) : PtEntry :=
  page ||| (((pte &&& ~~~pageAddrMask) &&& ~~~pteCow) ||| pteWritable)

/-- The branch of `handle_page_fault` for a write to a present page of the active map; false: not
copy-on-write. -/
def cowFault (map faultAddr : ℕ) : Option (Mmu × Bool) := do
  match ← s.vmmGetPte map faultAddr false with
  | (s, none) => pure (s, false)
  | (s, some (t, i)) =>
    let pte := s.entry t i
    if pte.has ptePresent && pte.has pteCow then
      match s.pmm.physToPage pte.addr with
      | none => pure (s, false)
      | some pg =>
        if 1 < (s.pmm.page pg).refCount then
          match ← s.pageAlloc 0 with
          | (_, none) => none
          | (s, some newPg) =>
            let s := s.copyPages newPg pte.frame 1
            match ← s.vmmGetPte map faultAddr false with
            | (s, rePte) =>
              if rePte = some (t, i) ∧ (s.entry t i).has ptePresent ∧ (s.entry t i).has pteCow ∧
                  (s.entry t i).addr = pte.addr then
                if 1 < (s.pmm.page pg).refCount then
                  let s := s.setEntry t i (writablePte (PtEntry.ofPage newPg) (s.entry t i))
                  let s := s.modifyPage pg fun q => { q with refCount := q.refCount - 1 }
                  pure (s.modifyPage newPg fun q => { q with refCount := q.refCount + 1 }, true)
                else
                  let s := s.setEntry t i (writablePte (pte &&& pageAddrMask) (s.entry t i))
                  pure ({ s with pmm := s.pmm.pmmFreePages newPg 0 }, true)
              else pure ({ s with pmm := s.pmm.pmmFreePages newPg 0 }, true)
        else pure (s.setEntry t i (writablePte (pte &&& pageAddrMask) pte), true)
    else pure (s, false)

end Mmu
end Doppio
