import Doppio.Library.Buddy

/-! The page allocator of `kernel/arch/x86_64/mmu.c`: the array of `struct page`, the free lists of
each order, `pmm_alloc_pages` and `pmm_free_pages`. A page is its index in the array; a result
`none` is an access through null. -/
namespace Doppio
open Buddy

def pageSize : ℕ := 4096

def maxOrder : ℕ := 11

/-- The fields of `struct page` that the allocator and the page tables use. -/
structure Page where
  next : Option ℕ
  prev : Option ℕ
  refCount : BitVec 32
  order : ℕ
  isFree : Bool
  deriving DecidableEq

/-- `g_pmm`, and the orders for which "Out of memory" was printed. -/
structure Pmm where
  page : ℕ → Page
  freeLists : ℕ → Option ℕ
  totalPages : ℕ
  outOfMemory : List ℕ

namespace Pmm

variable (s : Pmm)

def modify (i : ℕ) (f : Page → Page) : Pmm :=
  { s with page := Function.update s.page i (f (s.page i)) }

def setHead (o : ℕ) (head : Option ℕ) : Pmm :=
  { s with freeLists := Function.update s.freeLists o head }

def pageToPhys (i : ℕ) : ℕ := i * pageSize % 2 ^ 64

def physToPage (phys : ℕ) : Option ℕ :=
  if s.totalPages ≤ phys / pageSize then none else some (phys / pageSize)

def getBuddy (page order : ℕ) : Option ℕ :=
  s.physToPage (pageToPhys page ^^^ pageSize <<< order)

/-- `add_to_list(&g_pmm.free_lists[o], node)`. -/
def addToList (o node : ℕ) : Pmm :=
  let head := s.freeLists o
  let s := s.modify node fun p => { p with next := head, prev := none }
  let s := match head with
    | some first => s.modify first fun p => { p with prev := some node }
    | none => s
  s.setHead o (some node)

/-- `remove_from_list(&g_pmm.free_lists[o], target)`. -/
def removeFromList (o target : ℕ) : Pmm :=
  let next := (s.page target).next
  let prev := (s.page target).prev
  let s := match prev with
    | some p => s.modify p fun q => { q with next := next }
    | none => s.setHead o next
  let s := match next with
    | some n => s.modify n fun q => { q with prev := prev }
    | none => s
  s.modify target fun q => { q with next := none, prev := none }

/-- The first loop of `pmm_alloc_pages`: the first block of the lowest order from `o` on. -/
def findBlock (s : Pmm) : ℕ → ℕ → Option (ℕ × ℕ)
  | 0, _ => none
  | n + 1, o =>
    if o < maxOrder then
      match s.freeLists o with
      | some page => some (page, o)
      | none => findBlock s n (o + 1)
    else none

/-- The second loop: halve the block down to the order wanted. -/
def splitBlock (s : Pmm) (page order : ℕ) : ℕ → Option Pmm
  | 0 => some s
  | currentOrder + 1 =>
    if order < currentOrder + 1 then do
      let buddy ← s.getBuddy page currentOrder
      let s := s.modify buddy fun p => { p with isFree := true, order := currentOrder }
      splitBlock (s.addToList currentOrder buddy) page order currentOrder
    else some s

def pmmAllocPages (order : ℕ) : Option (Pmm × Option ℕ) :=
  match s.findBlock maxOrder order with
  | none => some ({ s with outOfMemory := s.outOfMemory ++ [order] }, none)
  | some (page, currentOrder) => do
    let s := s.removeFromList currentOrder page
    let s ← s.splitBlock page order currentOrder
    let s := s.modify page fun p => { p with isFree := false, order := order, refCount := 0 }
    pure (s, some page)

/-- The loop of `pmm_free_pages`: join the block with its free buddy; the block to be listed. -/
def mergeBlock (s : Pmm) : ℕ → ℕ → ℕ → Pmm × ℕ × ℕ
  | 0, page, order => (s, page, order)
  | n + 1, page, order =>
    if order < maxOrder - 1 then
      match s.getBuddy page order with
      | none => (s, page, order)
      | some buddy =>
        if (s.page buddy).isFree = false ∨ (s.page buddy).order ≠ order then (s, page, order)
        else
          let s := s.removeFromList order buddy
          let page := if buddy < page then buddy else page
          let s := s.modify page fun p => { p with order := order + 1 }
          mergeBlock s n page (order + 1)
    else (s, page, order)

def pmmFreePages (page order : ℕ) : Pmm :=
  let s := s.modify page fun p => { p with isFree := true, order := order }
  let (s, page, order) := s.mergeBlock maxOrder page order
  s.addToList order page

end Pmm
end Doppio
