import Mathlib.Algebra.Group.Nat.Defs
import Mathlib.Data.List.Basic

/-! Vnodes, their counts and the name cache (`kernel/vfs/vnode.c`), with the part of `struct
ramfs_node` that the name space uses. A vnode keeps its address when used again for another file.
`none` is an access through null or to a freed entry. -/
namespace Doppio.Vfs

/-- A C string without its terminator. -/
abbrev Name := List (BitVec 8)

abbrev VPtr := ℕ

inductive VType where
  | reg
  | dir
  | lnk
  | chr
  | other
  deriving DecidableEq

/-- `struct ramfs_entry`; `next` is the order of the list. -/
structure RamfsEntry where
  name : Name
  vn : VPtr
  deriving DecidableEq

structure Vnode where
  /-- assumed below `2 ^ 32` -/
  refCount : ℕ
  vtype : VType
  /-- `ops` are those of a character device, not `ramfs_ops` -/
  devOps : Bool
  vParent : Option VPtr
  vName : Name
  vReclaimable : Bool
  /-- `data` is not null -/
  hasData : Bool
  unlinked : Bool
  entries : List RamfsEntry
  /-- the contents of a symbolic link -/
  target : Name

def Vnode.zero : Vnode := ⟨0, .reg, false, none, [], false, false, false, [], []⟩

/-- The vnodes, the name cache and the free list; the root, the working directory and the open
files. -/
structure State where
  vnode : VPtr → Vnode
  vnodeHash : ℕ → List VPtr
  vnodeFreeList : List VPtr
  /-- memory not yet used for vnodes -/
  nextVnode : VPtr
  /-- the address of a vnode -/
  addr : VPtr → ℕ
  root : VPtr
  cwd : VPtr
  fds : List VPtr

namespace State

variable (s : State)

def setVnode (v : VPtr) (f : Vnode → Vnode) : State :=
  { s with vnode := Function.update s.vnode v (f (s.vnode v)) }

def vnodeHashSize : ℕ := 512

/-- `vnode_hash_func`; a `char` is signed. -/
def vnodeHashFunc (dvp : VPtr) (name : Name) : ℕ :=
  (name.foldl (fun (hash : BitVec 32) c => (hash <<< 5) + hash + c.signExtend 32)
    (BitVec.ofNat 32 (s.addr dvp))).toNat % vnodeHashSize

/-- `list_del(&vn->v_hash)`, for a vnode that is in the cache or not. -/
def unhash (v : VPtr) : State :=
  { s with vnodeHash := fun h => (s.vnodeHash h).filter (· ≠ v) }

/-- The first reclaimable vnode of the free list, or new memory. -/
def vnodeAlloc (type : VType) : VPtr × State :=
  let fresh : Vnode := { Vnode.zero with refCount := 1, vtype := type }
  match s.vnodeFreeList.find? fun v => (s.vnode v).vReclaimable with
  | some v =>
    let s := { s with vnodeFreeList := s.vnodeFreeList.erase v }
    (v, (s.unhash v).setVnode v fun _ => fresh)
  | none =>
    (s.nextVnode, { s with nextVnode := s.nextVnode + 1 }.setVnode s.nextVnode fun _ => fresh)

/-- With the reference it takes. -/
def vfsCachedLookup (dvp : VPtr) (name : Name) : Option (VPtr × State) :=
  match (s.vnodeHash (s.vnodeHashFunc dvp name)).find? fun v =>
      (s.vnode v).vParent = some dvp ∧ (s.vnode v).vName = name with
  | some v =>
    let s :=
      if (s.vnode v).refCount = 0 then { s with vnodeFreeList := s.vnodeFreeList.erase v } else s
    some (v, s.setVnode v fun n => { n with refCount := n.refCount + 1 })
  | none => none

/-- `v_name` has room for 31 bytes. -/
def vfsHashInsert (dvp : VPtr) (name : Name) (v : VPtr) : State :=
  let h := s.vnodeHashFunc dvp name
  let s := (s.unhash v).setVnode v fun n =>
    { n with vParent := some dvp, vName := name.take 31 }
  { s with vnodeHash := Function.update s.vnodeHash h (v :: s.vnodeHash h) }

/-- The count is not taken up from zero. -/
def vref (v : VPtr) : State :=
  s.setVnode v fun n => { n with refCount := if n.refCount = 0 then 0 else n.refCount + 1 }

/-- The entries that it does not free are lost. -/
def ramfsInactive (v : VPtr) : State :=
  s.setVnode v fun n => { n with hasData := false, unlinked := false, entries := [], target := [] }

/-- With its last reference a vnode leaves the cache, its file system drops its data and it goes to
the free list. A device has no `inactive`. -/
def vput (v : VPtr) : State :=
  if (s.vnode v).refCount = 1 then
    let s := (s.setVnode v fun n => { n with refCount := 0, vReclaimable := true }).unhash v
    let s := if (s.vnode v).devOps then s else s.ramfsInactive v
    { s with vnodeFreeList := s.vnodeFreeList ++ [v] }
  else
    s.setVnode v fun n =>
      { n with refCount := if n.refCount = 0 then 2 ^ 32 - 1 else n.refCount - 1 }

end State
end Doppio.Vfs
