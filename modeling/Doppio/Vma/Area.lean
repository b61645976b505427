import Doppio.Kernel.List
import Doppio.Vma.RbTree

/-! The areas of `kernel/mm/vma.c`: `struct vm_area`, the tree and the list that hold it, and the
operations on them. `none` is a read through null or a call that does not return. -/
namespace Doppio
open Function
open RedBlack

abbrev Vnode := ℕ

/-- The fields of `struct vm_area` that describe a range of addresses. -/
structure VmRange where
  start : ℕ
  end_ : ℕ
  flags : BitVec 32
  fileOffset : BitVec 64
  vn : Option Vnode
  deriving DecidableEq

/-- The head in `struct proc`, or the `vma_list` of an area. -/
inductive VmaNode where
  | head
  | area (vma : Ptr)
  deriving DecidableEq

structure VmArea where
  range : VmRange
  rb : RbLinks
  next : Option VmaNode
  prev : Option VmaNode

/-- The ranges, the tree with its root, the list with its head, the vnode counts and the state of
the kernel heap. -/
structure VmaSpace (κ : Type) where
  range : Ptr → VmRange
  tree : RbHeap
  list : ListHeap VmaNode
  vnRef : Vnode → ℤ
  kmem : κ

/-- Memory handed out is not in use, and stays in use until given back. -/
structure Kmem (κ : Type) where
  kmalloc : κ → Option (Ptr × κ)
  kfree : κ → Ptr → κ
  Live : κ → Ptr → Prop
  not_live {k k' : κ} {p : Ptr} : kmalloc k = some (p, k') → ¬ Live k p
  live_self {k k' : κ} {p : Ptr} : kmalloc k = some (p, k') → Live k' p
  live_kmalloc {k k' : κ} {p q : Ptr} : kmalloc k = some (p, k') → Live k q → Live k' q
  live_kfree {k : κ} {p q : Ptr} : q ≠ p → Live k q → Live (kfree k p) q

namespace VmaSpace
variable {κ : Type}

section
variable (s : VmaSpace κ)

def store (vma : Ptr) (a : VmArea) : VmaSpace κ :=
  { s with
    range := update s.range vma a.range
    tree := s.tree.setLinks vma a.rb
    list := (s.list.setNext (.area vma) a.next).setPrev (.area vma) a.prev }

def setRange (vma : Ptr) (r : VmRange) : VmaSpace κ :=
  { s with range := update s.range vma r }

def setEnd (vma : Ptr) (end_ : ℕ) : VmaSpace κ :=
  s.setRange vma { s.range vma with end_ := end_ }

def setFileOffset (vma : Ptr) (offset : BitVec 64) : VmaSpace κ :=
  s.setRange vma { s.range vma with fileOffset := offset }

end

/-- The descent of `vma_insert` to the node below which the area is linked. -/
def vmaInsertLoop : ℕ → VmaSpace κ → ℕ → Option Ptr → Option Ptr → Option (Option Ptr)
  | 0, _, _, _, _ => none
  | _ + 1, _, _, y, none => some y
  | n + 1, s, start, _, some x =>
    if start < (s.range x).start then
      vmaInsertLoop n s start (some x) (s.tree.links x).rbLeft
    else
      vmaInsertLoop n s start (some x) (s.tree.links x).rbRight

/-- Hang `vma` below `y` in the tree, next to it in the list. -/
def vmaInsertLink (s : VmaSpace κ) (vma : Ptr) : Option Ptr → Option (VmaSpace κ)
  | none => do
    let list ← s.list.listAdd (.area vma) .head
    pure { s with tree := { s.tree with root := some vma }, list := list }
  | some y =>
    if (s.range vma).start < (s.range y).start then do
      let list ← s.list.listAddTail (.area vma) (.area y)
      pure { s with tree := s.tree.setChild .left y (some vma), list := list }
    else do
      let list ← s.list.listAdd (.area vma) (.area y)
      pure { s with tree := s.tree.setChild .right y (some vma), list := list }

def vmaInsert (s : VmaSpace κ) (vma : Ptr) : Option (VmaSpace κ) := do
  let y ← vmaInsertLoop loopBound s (s.range vma).start none s.tree.root
  let s := { s with tree := s.tree.setLinks vma ⟨y, none, none, .red⟩ }
  let s ← s.vmaInsertLink vma y
  let tree ← s.tree.rbInsertFixup vma
  pure { s with tree := tree }

def vmaErase (s : VmaSpace κ) (vma : Ptr) : Option (VmaSpace κ) := do
  let list ← s.list.listDel (.area vma)
  let tree ← s.tree.rbEraseNode vma
  pure { s with list := list, tree := tree }

def vmaFindLoop : ℕ → VmaSpace κ → ℕ → Option Ptr → Option (Option Ptr)
  | 0, _, _, _ => none
  | _ + 1, _, _, none => some none
  | n + 1, s, addr, some v =>
    if addr < (s.range v).start then vmaFindLoop n s addr (s.tree.links v).rbLeft
    else if (s.range v).end_ ≤ addr then vmaFindLoop n s addr (s.tree.links v).rbRight
    else some (some v)

def vmaFind (s : VmaSpace κ) (addr : ℕ) : Option (Option Ptr) :=
  vmaFindLoop loopBound s addr s.tree.root

def vmaFindFirstLoop : ℕ → VmaSpace κ → ℕ → Option Ptr → Option Ptr → Option (Option Ptr)
  | 0, _, _, _, _ => none
  | _ + 1, _, _, candidate, none => some candidate
  | n + 1, s, addr, candidate, some v =>
    if addr < (s.range v).start then
      vmaFindFirstLoop n s addr (some v) (s.tree.links v).rbLeft
    else if (s.range v).end_ ≤ addr then
      vmaFindFirstLoop n s addr candidate (s.tree.links v).rbRight
    else some (some v)

def vmaFindFirst (s : VmaSpace κ) (addr : ℕ) : Option (Option Ptr) :=
  vmaFindFirstLoop loopBound s addr none s.tree.root

def vmaForEachLoop : ℕ → VmaSpace κ → VmaNode → Option (List Ptr)
  | 0, _, _ => none
  | _ + 1, _, .head => some []
  | n + 1, s, .area pos => do
    let next ← s.list.next (.area pos)
    let rest ← vmaForEachLoop n s next
    pure (pos :: rest)

def vmaForEach (s : VmaSpace κ) : Option (List Ptr) := do
  let first ← s.list.next .head
  vmaForEachLoop loopBound s first

/-- `vref`; the callers skip null. -/
def vref (s : VmaSpace κ) : Option Vnode → VmaSpace κ
  | none => s
  | some vn => { s with vnRef := update s.vnRef vn (s.vnRef vn + 1) }

/-- The count that `vput` drops; an unused vnode's end does not touch the areas. -/
def vput (s : VmaSpace κ) : Option Vnode → VmaSpace κ
  | none => s
  | some vn => { s with vnRef := update s.vnRef vn (s.vnRef vn - 1) }

variable (K : Kmem κ)

section
variable (s : VmaSpace κ)

/-- `vma_alloc`; null when `kmalloc` fails. -/
def vmaAlloc (r : VmRange) : VmaSpace κ × Option Ptr :=
  match K.kmalloc s.kmem with
  | none => (s, none)
  | some (vma, kmem) =>
    let s := { s with kmem := kmem }.vref r.vn
    let node := some (VmaNode.area vma)
    (s.store vma ⟨r, ⟨none, none, none, .red⟩, node, node⟩, some vma)

def vmaFree (vma : Ptr) : VmaSpace κ :=
  let s := s.vput (s.range vma).vn
  { s with kmem := K.kfree s.kmem vma }

/-- `[start, addr)` stays in `vma`, `[addr, end)` becomes a new area. -/
def vmaSplit (vma : Ptr) (addr : ℕ) : Option (VmaSpace κ × Option Ptr) :=
  let v := s.range vma
  if addr ≤ v.start ∨ v.end_ ≤ addr then some (s, some vma)
  else
    match s.vmaAlloc K { v with start := addr } with
    | (s, none) => some (s, none)
    | (s, some newVma) => do
      let s := s.setFileOffset newVma (v.fileOffset + BitVec.ofNat 64 (addr - v.start))
      let s := s.setEnd vma addr
      let s ← s.vmaInsert newVma
      pure (s, some newVma)

/-- The area that a turn of `vma_remove_range` erases after its splits; false: the turn ends in a
`break`. -/
def vmaRemoveStep (vma : Ptr) (start end_ : ℕ) : Option (Bool × VmaSpace κ × Option Ptr) :=
  if (s.range vma).start < start then do
    match ← s.vmaSplit K vma start with
    | (s, none) => pure (false, s, none)
    | (s, some right) =>
      if end_ < (s.range right).end_ then
        match ← s.vmaSplit K right end_ with
        | (s, none) => pure (false, s, none)
        | (s, some tail) => pure (true, s, some tail)
      else pure (true, s, some right)
  else if end_ < (s.range vma).end_ then do
    match ← s.vmaSplit K vma end_ with
    | (s, none) => pure (true, s, none)
    | (s, some _) => pure (true, s, some vma)
  else some (true, s, some vma)

end

def vmaRemoveRangeLoop : ℕ → VmaSpace κ → ℕ → ℕ → Option (VmaSpace κ)
  | 0, _, _, _ => none
  | n + 1, s, start, end_ => do
    match ← s.vmaFindFirst start with
    | none => pure s
    | some vma =>
      if end_ ≤ (s.range vma).start then pure s
      else
        match ← s.vmaRemoveStep K vma start end_ with
        | (false, s, _) => pure s
        | (true, s, none) => vmaRemoveRangeLoop n s start end_
        | (true, s, some eraseVma) => do
          let s ← s.vmaErase eraseVma
          vmaRemoveRangeLoop n (s.vmaFree K eraseVma) start end_

def vmaRemoveRange (s : VmaSpace κ) (start end_ : ℕ) : Option (VmaSpace κ) :=
  vmaRemoveRangeLoop K loopBound s start end_

end VmaSpace
end Doppio
