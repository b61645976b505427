import Doppio.Library.Loop
import Doppio.Mmu.Pmm

/-! The heap of `kernel/mm/kmem.c`: size classes with a magazine per CPU and a depot per class, and
blocks of pages for large requests. A pointer into the direct map is written as its physical
address. `none` is an access through null or outside an array. -/
namespace Doppio
open Function

abbrev kmemNumClasses : ℕ := 16

def kmemMagCapacity : ℕ := 16

def kmemMaxDirect : ℕ := 2048

abbrev KmemClass := Fin kmemNumClasses

def kmemClassSizes : KmemClass → ℕ :=
  ![8, 16, 32, 48, 64, 96, 128, 192, 256, 384, 512, 768, 1024, 1280, 1536, 2048]

def kmemClassInitOrders : KmemClass → ℕ :=
  ![0, 0, 0, 0, 0, 0, 0, 0, 4, 4, 4, 4, 4, 4, 4, 4]

structure Magazine where
  next : Option ℕ
  slots : ℕ → Option ℕ
  top : ℤ

/-- `sizeof(kmem_magazine_t)` -/
def magazineSize : ℕ := 144

structure Depot where
  fullMags : Option ℕ
  emptyMags : Option ℕ
  fullCount : BitVec 32
  emptyCount : BitVec 32
  currentChunk : ℕ
  objsRemaining : ℕ
  currentOrder : ℕ

/-- The page allocator, `obj_size` and `free_count` of `struct page`, the magazines' memory, the
static variables of `kmem.c`, the magazines of the CPUs and the bytes of the memory. `carved`: the
objects cut by `kmem_depot_refill`, which the source does not record. -/
structure KmemHeap where
  pmm : Pmm
  objSize : ℕ → ℕ
  freeCount : ℕ → BitVec 32
  magazine : ℕ → Magazine
  freeMags : Option ℕ
  depots : KmemClass → Depot
  magazines : ℕ → KmemClass → Option ℕ
  byte : ℕ → BitVec 8
  carved : List ℕ

namespace KmemHeap
open Pmm

variable (s : KmemHeap)

def setMag (mag : ℕ) (f : Magazine → Magazine) : KmemHeap :=
  { s with magazine := update s.magazine mag (f (s.magazine mag)) }

section
variable (idx : KmemClass)

def setDepot (f : Depot → Depot) : KmemHeap :=
  { s with depots := update s.depots idx (f (s.depots idx)) }

/-- `c->magazines[idx] = mag`. -/
def load (c : ℕ) (idx : KmemClass) (mag : Option ℕ) : KmemHeap :=
  { s with magazines :=
      update s.magazines c (update (s.magazines c) idx mag) }

def kmemInit : KmemHeap :=
  { s with depots := fun i => ⟨none, none, 0, 0, 0, 0, kmemClassInitOrders i⟩ }

def kmemGetIndex (size : ℕ) : Option KmemClass :=
  if size ≤ 8 then some 0
  else if 2048 < size then none
  else ((List.finRange kmemNumClasses).drop 1).find? fun i => size ≤ kmemClassSizes i

/-- The loop of `kmem_alloc_large`: the first order with enough pages. -/
def orderFor (pages : ℕ) : ℕ → ℕ → ℕ
  | 0, order => order
  | n + 1, order => if 1 <<< order < pages then orderFor pages n (order + 1) else order

def kmemAllocLarge (size : BitVec 64) : Option (KmemHeap × Option ℕ) :=
  let pages := ((size + 4096 - 1) / 4096).toNat
  if 1 <<< (maxOrder - 1) < pages then some (s, none)
  else
    let order := orderFor pages maxOrder 0
    match s.pmm.pmmAllocPages order with
    | none => none
    | some (pmm, none) => some ({ s with pmm := pmm }, none)
    | some (pmm, some p) =>
      some ({ s with
        pmm := pmm.modify p fun q => { q with order := order }
        objSize := update s.objSize p 0 }, some (pageToPhys p))

def linkBatch (batch : ℕ) : KmemHeap :=
  let count := pageSize / magazineSize
  let s := (List.range (count - 1)).foldl (fun s i =>
    s.setMag (batch + i * magazineSize) fun m =>
      { m with next := some (batch + (i + 1) * magazineSize) }) s
  s.setMag (batch + (count - 1) * magazineSize) fun m => { m with next := none }

/-- The end of `kmem_internal_mag_alloc`: the first of `free_mags`. -/
def takeFreeMag : Option (KmemHeap × Option ℕ) := do
  let mag ← s.freeMags
  let s := { s with freeMags := (s.magazine mag).next }
  some (s.setMag mag fun m => { m with top := 0, next := none }, some mag)

def kmemInternalMagAlloc : Option (KmemHeap × Option ℕ) :=
  match s.freeMags with
  | some _ => s.takeFreeMag
  | none =>
    match s.pmm.pmmAllocPages 0 with
    | none => none
    | some (pmm, none) => some ({ s with pmm := pmm }, none)
    | some (pmm, some p) =>
      let batch := pageToPhys p
      let s := linkBatch { s with pmm := pmm } batch
      takeFreeMag { s with freeMags := some batch }

def popEmpty (mag : ℕ) : KmemHeap :=
  s.setDepot idx fun d =>
    { d with emptyMags := (s.magazine mag).next, emptyCount := d.emptyCount - 1 }

def kmemGetEmptyMag : Option (KmemHeap × Option ℕ) :=
  match (s.depots idx).emptyMags with
  | some mag =>
    some ((s.popEmpty idx mag).setMag mag fun m => { m with top := 0, next := none }, some mag)
  | none =>
    match s.kmemInternalMagAlloc with
    | none => none
    | some (s, none) => some (s, none)
    | some (s, some mag) =>
      some (s.setMag mag fun m => { m with top := 0, next := none }, some mag)

def kmemMagazineSwapFull (c : ℕ) (idx : KmemClass) : Option KmemHeap := do
  let fullMag ← s.magazines c idx
  let s := s.setMag fullMag fun m => { m with next := (s.depots idx).fullMags }
  let s := s.setDepot idx fun d =>
    { d with fullMags := some fullMag, fullCount := d.fullCount + 1 }
  match (s.depots idx).emptyMags with
  | some empty => some ((s.popEmpty idx empty).load c idx (some empty))
  | none =>
    let (s, empty) ← s.kmemGetEmptyMag idx
    some (s.load c idx empty)

def kmemSetupSlabPage (p objSize order : ℕ) : KmemHeap :=
  let numPages := 1 <<< order
  let s := { s with
    pmm := s.pmm.modify p fun q => { q with order := order, isFree := false }
    objSize := update s.objSize p objSize }
  let perPageObjs := pageSize / objSize
  (List.range numPages).foldl (fun s i =>
    { s with
      objSize := update s.objSize (p + i) objSize
      freeCount := update s.freeCount (p + i) (BitVec.ofNat 32 perPageObjs) }) s

/-- The end of `kmem_depot_refill`: the next object of the chunk. -/
def cutObject : Option (KmemHeap × Option ℕ) := do
  let obj := (s.depots idx).currentChunk
  let s := s.setDepot idx fun d =>
    { d with
      currentChunk := d.currentChunk + kmemClassSizes idx
      objsRemaining := d.objsRemaining - 1 }
  let page ← s.pmm.physToPage obj
  some ({ s with
    freeCount := update s.freeCount page (s.freeCount page - 1)
    carved := obj :: s.carved }, some obj)

def kmemDepotRefill : Option (KmemHeap × Option ℕ) :=
  if (s.depots idx).objsRemaining = 0 then
    let order := (s.depots idx).currentOrder
    match s.pmm.pmmAllocPages order with
    | none => none
    | some (pmm, none) => some ({ s with pmm := pmm }, none)
    | some (pmm, some p) =>
      let s := setDepot { s with pmm := pmm } idx fun d =>
        { d with
          currentChunk := pageToPhys p
          objsRemaining := (pageSize <<< order) / kmemClassSizes idx }
      (s.kmemSetupSlabPage p (kmemClassSizes idx) order).cutObject idx
  else s.cutObject idx

/-- `mag->slots[mag->top++] = obj`. -/
def pushSlot (mag obj : ℕ) : Option KmemHeap :=
  let top := (s.magazine mag).top
  if 0 ≤ top ∧ top < kmemMagCapacity then
    some (s.setMag mag fun m =>
      { m with slots := update m.slots top.toNat (some obj), top := top + 1 })
  else none

/-- `ptr = mag->slots[--mag->top]`. -/
def popSlot (mag : ℕ) : Option (KmemHeap × Option ℕ) :=
  let top := (s.magazine mag).top - 1
  if 0 ≤ top ∧ top < kmemMagCapacity then
    some (s.setMag mag fun m => { m with top := top }, (s.magazine mag).slots top.toNat)
  else none

/-- One turn of the loop that fills a new magazine; `true` leaves it. -/
def refillSlot (mag : ℕ) (s : KmemHeap) : Option (KmemHeap × Bool) :=
  match s.kmemDepotRefill idx with
  | none => none
  | some (s, none) => some (s, true)
  | some (s, some obj) => (s.pushSlot mag obj).map fun s => (s, false)

end

def kmemMagazineSwapEmpty (c : ℕ) (idx : KmemClass) : Option KmemHeap := do
  let emptyMag ← s.magazines c idx
  let s := s.setMag emptyMag fun m => { m with next := (s.depots idx).emptyMags }
  let s := s.setDepot idx fun d =>
    { d with emptyMags := some emptyMag, emptyCount := d.emptyCount + 1 }
  match (s.depots idx).fullMags with
  | some full =>
    let s := s.setDepot idx fun d =>
      { d with fullMags := (s.magazine full).next, fullCount := d.fullCount - 1 }
    some (s.load c idx (some full))
  | none =>
    let (s, newMag) ← s.kmemGetEmptyMag idx
    match newMag with
    | none => some (s.load c idx none)
    | some mag =>
      let (s, _) ← Loop.forUntil (fun _ s => s.refillSlot idx mag) kmemMagCapacity s
      some (s.load c idx (some mag))

/-- `if (!c->magazines[idx]) c->magazines[idx] = kmem_get_empty_mag(idx)`. -/
def loadMagazine (c : ℕ) (idx : KmemClass) : Option KmemHeap :=
  match s.magazines c idx with
  | some _ => some s
  | none => (s.kmemGetEmptyMag idx).map fun (s, mag) => s.load c idx mag

def kmalloc (c : ℕ) (size : BitVec 64) : Option (KmemHeap × Option ℕ) :=
  if size = 0 then some (s, none)
  else if kmemMaxDirect < size.toNat then do
    let (s, ptr) ← s.kmemAllocLarge size
    match ptr with
    | none => some (s, none)
    | some ptr =>
      let _pg ← s.pmm.physToPage ptr
      some (s, some ptr)
  else
    match kmemGetIndex size.toNat with
    | none => some (s, none)
    | some idx => do
      let s ← s.loadMagazine c idx
      match s.magazines c idx with
      | none => some (s, none)
      | some mag =>
        if 0 < (s.magazine mag).top then s.popSlot mag
        else
          let s ← s.kmemMagazineSwapEmpty c idx
          match s.magazines c idx with
          | none => some (s, none)
          | some mag => if 0 < (s.magazine mag).top then s.popSlot mag else some (s, none)

/-- `kasan_kfree` overwrites the bytes of a freed block. -/
def kasanKfree (ptr classSize : ℕ) : KmemHeap :=
  { s with byte := fun a => if ptr ≤ a ∧ a < ptr + classSize then 0xBE else s.byte a }

/-- The end of `kfree`: the object goes into the CPU's magazine. -/
def freeObject (c : ℕ) (idx : KmemClass) (ptr : ℕ) : Option KmemHeap := do
  let s ← s.loadMagazine c idx
  match s.magazines c idx with
  | none => some s
  | some mag =>
    if (s.magazine mag).top < kmemMagCapacity then s.pushSlot mag ptr
    else
      let s ← s.kmemMagazineSwapFull c idx
      let mag ← s.magazines c idx
      s.pushSlot mag ptr

def kfree (c : ℕ) (ptr : Option ℕ) : Option KmemHeap :=
  match ptr with
  | none => some s
  | some ptr => do
    let page ← s.pmm.physToPage ptr
    if s.objSize page = 0 then
      let order := (s.pmm.page page).order
      let s := s.kasanKfree ptr (pageSize <<< order)
      some { s with pmm := s.pmm.pmmFreePages page order }
    else
      let s := s.kasanKfree ptr (s.objSize page)
      let s := { s with freeCount := update s.freeCount page (s.freeCount page + 1) }
      match kmemGetIndex (s.objSize page) with
      | none => some s
      | some idx => s.freeObject c idx ptr

def oldSize (page : ℕ) : ℕ :=
  if s.objSize page = 0 then pageSize <<< (s.pmm.page page).order else s.objSize page

def memcpy (dst src n : ℕ) : KmemHeap :=
  { s with byte := fun a => if dst ≤ a ∧ a < dst + n then s.byte (src + (a - dst)) else s.byte a }

def krealloc (c : ℕ) (ptr : Option ℕ) (size : BitVec 64) : Option (KmemHeap × Option ℕ) :=
  match ptr with
  | none => s.kmalloc c size
  | some ptr =>
    if size = 0 then (s.kfree c (some ptr)).map fun s => (s, none)
    else do
      let page ← s.pmm.physToPage ptr
      let oldSize := s.oldSize page
      if size.toNat ≤ oldSize then some (s, some ptr)
      else
        match ← s.kmalloc c size with
        | (s, none) => some (s, none)
        | (s, some newPtr) =>
          let s := s.memcpy newPtr ptr oldSize
          (s.kfree c (some ptr)).map fun s => (s, some newPtr)

end KmemHeap
end Doppio
