import Doppio.Vfs.Vnode

/-! The operations of `kernel/vfs/ramfs.c` on directories. Memory is never short. -/
namespace Doppio.Vfs

inductive Errno where
  | ENOENT
  | EEXIST
  | ENOTDIR
  | ENOTEMPTY
  | ENAMETOOLONG
  | ELOOP
  | EACCES
  | ENOTSUP
  | EBADF
  | EMFILE
  deriving DecidableEq

def dot : Name := [0x2e]

/-- Without the first entry of the name. -/
def dropName (name : Name) (entries : List RamfsEntry) : List RamfsEntry :=
  entries.eraseP fun e => e.name = name

namespace State

variable (s : State)

section
variable (dvp : VPtr)

/-- The loop over the entries for a name. -/
def entryNamed (name : Name) : Option RamfsEntry :=
  (s.vnode dvp).entries.find? fun e => e.name = name

def setEntries (f : List RamfsEntry → List RamfsEntry) : State :=
  s.setVnode dvp fun n => { n with entries := f n.entries }

/-- `ramfs_lookup` and `ramfs_lookup_locked`, with their reference. -/
def ramfsLookup (name : Name) : Option (Except Errno VPtr × State) :=
  if name = dot then some (.ok dvp, s.vref dvp)
  else if ¬(s.vnode dvp).hasData then none
  else
    match s.entryNamed dvp name with
    | some e => some (.ok e.vn, s.vref e.vn)
    | none => some (.error .ENOENT, s)

def ramfsCreateVnode (type : VType) : VPtr × State :=
  let p := s.vnodeAlloc type
  (p.1, p.2.setVnode p.1 fun n => { n with hasData := true })

/-- `ramfs_mkdir` and `ramfs_create`: a new vnode and its entry. -/
def ramfsNew (name : Name) (type : VType) : Option (Except Errno VPtr × State) :=
  if 256 ≤ name.length then some (.error .ENAMETOOLONG, s)
  else
    match s.ramfsLookup dvp name with
    | none => none
    | some (.ok v, s) => some (.error .EEXIST, s.vput v)
    | some (.error _, s) =>
      let p := s.ramfsCreateVnode type
      some (.ok p.1, p.2.setEntries dvp (⟨name.take 255, p.1⟩ :: ·))

/-- The new vnode is held by its entry only. -/
def ramfsMkdir (name : Name) : Option (Except Errno VPtr × State) :=
  s.ramfsNew dvp name .dir

/-- With a reference for the caller. -/
def ramfsCreate (name : Name) (type : VType) : Option (Except Errno VPtr × State) :=
  match s.ramfsNew dvp name type with
  | some (.ok v, s) => some (.ok v, s.vref v)
  | r => r

/-- The directory loses the entry, the vnode is marked and its reference given back. -/
def removeEntry (e : RamfsEntry) : Option State :=
  let s := s.setEntries dvp (dropName e.name)
  if (s.vnode e.vn).hasData then
    some ((s.setVnode e.vn fun n => { n with unlinked := true, vReclaimable := true }).vput e.vn)
  else none

def ramfsRemove (name : Name) : Option (Except Errno Unit × State) :=
  if ¬(s.vnode dvp).hasData then none
  else
    match s.entryNamed dvp name with
    | some e => (s.removeEntry dvp e).map fun s => (.ok (), s)
    | none => some (.error .ENOENT, s)

def ramfsRmdir (name : Name) : Option (Except Errno Unit × State) :=
  if ¬(s.vnode dvp).hasData then none
  else
    match s.entryNamed dvp name with
    | some e =>
      if ¬(s.vnode e.vn).hasData then none
      else if (s.vnode e.vn).entries ≠ [] then some (.error .ENOTEMPTY, s)
      else (s.removeEntry dvp e).map fun s => (.ok (), s)
    | none => some (.error .ENOENT, s)

end

/-- The first entry of one name is that of the other, or directly before it. -/
def holdsLink (entries : List RamfsEntry) (dname sname : Name) : Prop :=
  dname = sname ∨
    (entries.findIdx fun e => e.name = dname) + 1 = entries.findIdx fun e => e.name = sname

instance (entries : List RamfsEntry) (dname sname : Name) :
    Decidable (holdsLink entries dname sname) := instDecidableOr

/-- The end of `ramfs_rename`: the entry goes to the front of the target directory, under its new
name. -/
def moveEntry (sdvp : VPtr) (found : RamfsEntry) (tdvp : VPtr) (dname : Name) : State :=
  (s.setEntries sdvp (dropName found.name)).setEntries tdvp (⟨dname.take 255, found.vn⟩ :: ·)

/-- The entry of a replaced file is freed before the link `sprev` to the entry found is written:
where it holds that link or is that entry, freed memory is written. -/
def ramfsRename (sdvp : VPtr) (sname : Name) (tdvp : VPtr) (dname : Name) :
    Option (Except Errno Unit × State) :=
  if ¬(s.vnode sdvp).hasData then none
  else
    match s.entryNamed sdvp sname with
    | none => some (.error .ENOENT, s)
    | some found =>
      if ¬(s.vnode tdvp).hasData then none
      else
        match s.entryNamed tdvp dname with
        | none => some (.ok (), s.moveEntry sdvp found tdvp dname)
        | some e =>
          if sdvp = tdvp ∧ holdsLink (s.vnode sdvp).entries dname sname then none
          else (s.removeEntry tdvp e).map fun s => (.ok (), s.moveEntry sdvp found tdvp dname)

end State
end Doppio.Vfs
