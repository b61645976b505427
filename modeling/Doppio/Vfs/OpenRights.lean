import Doppio.Vfs.Permission
import Doppio.Vfs.RamfsFile

/-! The right to write a file: `vfs_open` checks it; `sys_write`, `sys_writev`, `sys_pwrite64`,
`sys_ftruncate`, `sys_fallocate` and `sys_fcntl` work on what it opened. -/
namespace Doppio.OpenRights
open Function Option
open Vfs

/-- A vnode with what its `struct ramfs_node` holds. -/
structure FileNode where
  vtype : VType
  vName : Name
  attr : Attr
  node : RamfsNode

/-- `struct file`; `granted`, not in the source: opened for writing with the right to, or made by
the call. -/
structure OpenFile where
  vn : VPtr
  flags : BitVec 32
  pos : ℕ
  granted : Bool

structure State where
  who : Caller
  /-- `g_boot_info.fb.pitch * g_boot_info.fb.height` -/
  fbSize : ℕ
  vnode : VPtr → FileNode
  nextVnode : VPtr
  file : ℕ → OpenFile
  nextFile : ℕ
  pFdTable : ℕ → Option ℕ

def maxFiles : ℕ := 256

def oTrunc : BitVec 32 := 0x200
def oAppend : BitVec 32 := 0x400

section
variable (flags : BitVec 32)

/-- `flags & O_ACCMODE`. -/
def accMode : BitVec 32 := flags &&& 3

def Writable : Prop := accMode flags = 1 ∨ accMode flags = 2

instance : Decidable (Writable flags) := instDecidableOr

def wanted : ℕ :=
  (if accMode flags = 0 ∨ accMode flags = 2 then rOk else 0) |||
    if accMode flags = 1 ∨ accMode flags = 2 then wOk else 0

end

/-- The argument of `setattr`; a field that is -1 is `none`. -/
structure Stat where
  mode : Option ℕ
  uid : Option ℕ
  gid : Option ℕ
  size : ℕ

def FileNode.setattr (n : FileNode) (st : Stat) : Option FileNode :=
  let n := { n with attr :=
    { mode := (st.mode.map (· &&& 0o7777)).getD n.attr.mode
      uid := st.uid.getD n.attr.uid
      gid := st.gid.getD n.attr.gid } }
  if n.vtype ≠ .reg then some n
  else (Ramfs.ramfsSetattr n.node st.size).map fun node => { n with node }

/-- An error is `some none`; the offset is not negative. -/
def FileNode.write (n : FileNode) (buf : List (BitVec 8)) (off : ℕ) :
    Option (Option (FileNode × ℕ)) :=
  if n.vtype ≠ .reg ∧ n.vtype ≠ .lnk then some none
  else (Ramfs.ramfsWrite n.node buf off).map fun p => some ({ n with node := p.1 }, p.2)

namespace State

variable (s : State)

def setVnode (v : VPtr) (n : FileNode) : State :=
  { s with vnode := update s.vnode v n }

def setFile (f : ℕ) (o : OpenFile) : State :=
  { s with file := update s.file f o }

/-- The first free slot from `min` on. -/
def freeFd (min : ℕ) : Option ℕ :=
  (List.range' min (maxFiles - min)).find? fun i => (s.pFdTable i).isNone

def vfsMayOpen (v : VPtr) (flags : BitVec 32) : Bool :=
  wanted flags = 0 || (s.vnode v).attr.permits s.who.cred (wanted flags)

def truncate (v : VPtr) (flags : BitVec 32) : Option State :=
  if flags &&& oTrunc ≠ 0 then
    ((s.vnode v).setattr ⟨none, none, none, 0⟩).map (s.setVnode v)
  else some s

/-- `vfs_open` from its check of the file on. -/
def openFile (v : VPtr) (flags : BitVec 32) (created : Bool) : Option State :=
  if ¬s.vfsMayOpen v flags then some s
  else do
    let granted := created || (decide (Writable flags) && (s.vnode v).attr.permits s.who.cred wOk)
    let s ← s.truncate v flags
    let f := s.nextFile
    let s := { s.setFile f ⟨v, flags, if flags &&& oAppend ≠ 0 then 2 ^ 64 - 1 else 0, granted⟩
      with nextFile := f + 1 }
    match s.freeFd 0 with
    | some fd => some { s with pFdTable := update s.pFdTable fd (some f) }
    | none => some s

def createVnode (name : Name) (mode : ℕ) : State :=
  { s.setVnode s.nextVnode
      ⟨.ofMode mode, name, ⟨mode &&& 0o7777, s.who.cred.euid, s.who.cred.egid⟩,
        Ramfs.createdFile⟩ with nextVnode := s.nextVnode + 1 }

end State

/-- What the lookups of `vfs_open` give for its path. -/
inductive Found where
  | file (v : VPtr)
  /-- no such file, but its parent directory -/
  | parent (dvp : VPtr) (name : Name)
  | neither

namespace State

def vfsOpen (s : State) (found : Found) (flags : BitVec 32) (mode : ℕ) : Option State :=
  match found with
  | .neither => some s
  | .file v =>
    if s.nextVnode ≤ v then none
    else if flags &&& 0xc0 = 0xc0 then some s
    else s.openFile v flags false
  | .parent dvp name =>
    if s.nextVnode ≤ dvp then none
    else if flags &&& 0x40 = 0 then some s
    else if ¬(s.vnode dvp).attr.permits s.who.cred wOk then some s
    else (s.createVnode name (mode - (mode &&& s.who.umask))).openFile s.nextVnode flags true

/-- An error is `none`. -/
def vfsWrite (s : State) (fd : ℕ) (buf : List (BitVec 8)) : Option (Option ℕ × State) :=
  match s.pFdTable fd with
  | none => some (none, s)
  | some f =>
    let o := s.file f
    let n := s.vnode o.vn
    let writePos := if o.flags &&& oAppend ≠ 0 then n.node.size else o.pos
    match n.write buf writePos with
    | none => none
    | some none => some (none, s)
    | some (some (n, w)) =>
      let pos := if 0 < w then (writePos + w) % 2 ^ 64 else o.pos
      some (some w, (s.setVnode o.vn n).setFile f { o with pos })

end State

/-- The pieces copied to `kbuf`. -/
def kbufs : ℕ → List (BitVec 8) → List (List (BitVec 8))
  | 0, _ => []
  | _ + 1, [] => []
  | k + 1, buf => buf.take 4096 :: kbufs k (buf.drop 4096)

def fb0 : Name := [0x66, 0x62, 0x30]
def tty : Name := [0x74, 0x74, 0x79]

namespace State

/-- The loop of `sys_write`, with the bytes so far. -/
def writeLoop (fd : ℕ) : State → List (List (BitVec 8)) → ℕ → Option (Option ℕ × State)
  | s, [], total => some (some total, s)
  | s, buf :: rest, total =>
    match s.vfsWrite fd buf with
    | none => none
    | some (none, s) => some (if total = 0 then none else some total, s)
    | some (some 0, s) => some (some total, s)
    | some (some (n + 1), s) => writeLoop fd s rest (total + (n + 1))

/-- `sys_write` of what `copy_from_user` delivers; the screen and the terminal are no files. -/
def sysWrite (s : State) (fd : ℕ) (buf : List (BitVec 8)) : Option (Option ℕ × State) :=
  if buf = [] then some (some 0, s)
  else
    match s.pFdTable fd with
    | none => some (if fd = 1 ∨ fd = 2 then some buf.length else none, s)
    | some f =>
      let o := s.file f
      if (s.vnode o.vn).vName = fb0 then
        let count := min buf.length (s.fbSize - o.pos)
        some (some count, s.setFile f { o with pos := o.pos + count })
      else if (s.vnode o.vn).vName = tty then some (some buf.length, s)
      else writeLoop fd s (kbufs buf.length buf) 0

def sysWritev (fd : ℕ) : List (List (BitVec 8)) → State → Option State
  | [], s => some s
  | buf :: rest, s =>
    match s.sysWrite fd buf with
    | none => none
    | some (none, s) => some s
    | some (some _, s) => sysWritev fd rest s

/-- The loop of `sys_pwrite64`, on the vnode of the file. -/
def pwriteLoop (v : VPtr) : List (List (BitVec 8)) → ℕ → State → Option State
  | [], _, s => some s
  | buf :: rest, offset, s =>
    match (s.vnode v).write buf offset with
    | none => none
    | some none => some s
    | some (some (n, w)) =>
      if w = 0 then some (s.setVnode v n)
      else pwriteLoop v rest ((offset + w) % 2 ^ 64) (s.setVnode v n)

variable (s : State)

/-- `sys_pwrite64`; the offset is taken modulo 2^64. -/
def sysPwrite (fd : ℕ) (buf : List (BitVec 8)) (offset : ℕ) : Option State :=
  match s.pFdTable fd with
  | none => some s
  | some f =>
    let v := (s.file f).vn
    if (s.vnode v).vName = tty then some s
    else pwriteLoop v (kbufs buf.length buf) offset s

/-- `setattr` in `sys_ftruncate` and `sys_fallocate`: all fields but the size are zero. -/
def setSize (v : VPtr) (size : ℕ) : Option State :=
  ((s.vnode v).setattr ⟨some 0, some 0, some 0, size⟩).map (s.setVnode v)

def sysFtruncate (fd : ℕ) (length : ℤ) : Option State :=
  if length < 0 then some s
  else
    match s.pFdTable fd with
    | none => some s
    | some f => s.setSize (s.file f).vn length.toNat

def sysFallocate (fd : ℕ) (offset len : ℤ) : Option State :=
  match s.pFdTable fd with
  | none => some s
  | some f =>
    if offset < 0 ∨ len < 0 then some s
    else
      let requiredSize := (offset + len).bmod (2 ^ 64)
      if ((s.vnode (s.file f).vn).node.size : ℤ) < requiredSize then
        s.setSize (s.file f).vn requiredSize.toNat
      else some s

def sysFcntl (fd cmd : ℕ) (arg : BitVec 64) : Option State :=
  match s.pFdTable fd with
  | none => some s
  | some f =>
    if cmd = 0 ∨ cmd = 1030 then
      let minfd := arg.setWidth 32
      if minfd.toInt < 0 ∨ (maxFiles : ℤ) ≤ minfd.toInt then some s
      else
        match s.freeFd minfd.toNat with
        | some newfd => some { s with pFdTable := update s.pFdTable newfd (some f) }
        | none => some s
    else if cmd = 4 then
      let o := s.file f
      let flags := (o.flags &&& ~~~0xfffffff) ||| (arg.setWidth 32 &&& 0xfffffff)
      some (s.setFile f { o with flags })
    else some s

def sysClose (fd : ℕ) : State :=
  { s with pFdTable := update s.pFdTable fd none }

end State

inductive Call where
  | open (found : Found) (flags : BitVec 32) (mode : ℕ)
  | write (fd : ℕ) (buf : List (BitVec 8))
  | writev (fd : ℕ) (bufs : List (List (BitVec 8)))
  | pwrite (fd : ℕ) (buf : List (BitVec 8)) (offset : ℕ)
  | ftruncate (fd : ℕ) (length : ℤ)
  | fallocate (fd : ℕ) (offset len : ℤ)
  | fcntl (fd cmd : ℕ) (arg : BitVec 64)
  | close (fd : ℕ)

section
variable (s : State)

def State.call : Call → Option State
  | .open found flags mode => s.vfsOpen found flags mode
  | .write fd buf => (s.sysWrite fd buf).map Prod.snd
  | .writev fd bufs => State.sysWritev fd bufs s
  | .pwrite fd buf offset => s.sysPwrite fd buf offset
  | .ftruncate fd length => s.sysFtruncate fd length
  | .fallocate fd offset len => s.sysFallocate fd offset len
  | .fcntl fd cmd arg => s.sysFcntl fd cmd arg
  | .close fd => some (s.sysClose fd)

inductive Event where
  | call (c : Call)
  /-- what other processes do to files and attributes -/
  | others (vnode : VPtr → FileNode) (new : ℕ)

def step : Event → Option State
  | .call c => s.call c
  | .others vnode new => some { s with vnode, nextVnode := s.nextVnode + new }

/-- The descriptor of a call, or that `vfs_open` will give. -/
def Call.descriptor : Call → Option ℕ
  | .open _ _ _ => s.freeFd 0
  | .write fd _ | .writev fd _ | .pwrite fd _ _ | .ftruncate fd _ | .fallocate fd _ _ |
    .fcntl fd _ _ | .close fd => some fd

/-- The call's descriptor was opened with the right to write the file. -/
def Entitled (s s' : State) (c : Call) (v : VPtr) : Prop :=
  ∃ fd f, c.descriptor s = some fd ∧ s'.pFdTable fd = some f ∧ (s'.file f).vn = v ∧
    (s'.file f).granted = true

/-- The descriptor, if open, is for writing. -/
def State.OpenForWriting (fd : ℕ) : Prop :=
  ∀ f, s.pFdTable fd = some f → Writable (s.file f).flags

/-- No byte of `count` is written at a negative offset. -/
def State.InFile (fd count : ℕ) : Prop := ∀ f, s.pFdTable fd = some f →
  (if (s.file f).flags &&& oAppend ≠ 0 then (s.vnode (s.file f).vn).node.size else (s.file f).pos) +
    count ≤ 2 ^ 63

/-- What is not checked: the access mode and the offset in calls that change a file, the access mode
of the flags in `F_SETFL`, and for `O_TRUNC` the access mode and room for the descriptor. -/
def Careful : Call → Prop
  | .open _ flags _ => flags &&& oTrunc ≠ 0 → Writable flags ∧ s.freeFd 0 ≠ none
  | .write fd buf => s.OpenForWriting fd ∧ s.InFile fd buf.length
  | .writev fd bufs => s.OpenForWriting fd ∧ s.InFile fd bufs.flatten.length
  | .pwrite fd buf offset => s.OpenForWriting fd ∧ offset + buf.length ≤ 2 ^ 63
  | .ftruncate fd _ | .fallocate fd _ _ => s.OpenForWriting fd
  | .fcntl fd cmd arg => cmd = 4 → Writable (arg.setWidth 32) → s.OpenForWriting fd
  | .close _ => True

def CarefulStep : Event → Prop
  | .call c => Careful s c
  | .others _ _ => True

/-- The descriptors name files that exist; those for writing were opened with the right to. -/
structure Sound : Prop where
  allocated : ∀ fd f, s.pFdTable fd = some f → f < s.nextFile
  exist : ∀ fd f, s.pFdTable fd = some f → (s.file f).vn < s.nextVnode
  granted : ∀ fd f, s.pFdTable fd = some f → Writable (s.file f).flags → (s.file f).granted = true

end

/-- Nothing but the file `v` and the positions of open files changes. -/
structure Edits (v : VPtr) (s s' : State) : Prop where
  fds : s'.pFdTable = s.pFdTable
  nextVnode : s'.nextVnode = s.nextVnode
  nextFile : s'.nextFile = s.nextFile
  file : ∀ f, (s'.file f).vn = (s.file f).vn ∧ (s'.file f).flags = (s.file f).flags ∧
    (s'.file f).granted = (s.file f).granted
  other : ∀ w, w ≠ v → s'.vnode w = s.vnode w

variable {s s' t : State} {v w : VPtr} {fd f : ℕ}

theorem Edits.refl (v : VPtr) (s : State) : Edits v s s :=
  ⟨rfl, rfl, rfl, fun _ => ⟨rfl, rfl, rfl⟩, fun _ _ => rfl⟩

theorem Edits.trans (h : Edits v s t) (h' : Edits v t s') : Edits v s s' where
  fds := h'.fds.trans h.fds
  nextVnode := h'.nextVnode.trans h.nextVnode
  nextFile := h'.nextFile.trans h.nextFile
  file f := ⟨(h'.file f).1.trans (h.file f).1, (h'.file f).2.1.trans (h.file f).2.1,
    (h'.file f).2.2.trans (h.file f).2.2⟩
  other w hw := (h'.other w hw).trans (h.other w hw)

theorem edits_setVnode (s : State) (v : VPtr) (n : FileNode) : Edits v s (s.setVnode v n) :=
  ⟨rfl, rfl, rfl, fun _ => ⟨rfl, rfl, rfl⟩, fun _ hw => update_of_ne hw _ _⟩

theorem file_setFile (s : State) (f g : ℕ) (o : OpenFile) :
    (s.setFile f o).file g = if g = f then o else s.file g := by
  simp only [State.setFile, update_apply]

theorem edits_setFile {o : OpenFile} (v : VPtr) (hvn : o.vn = (s.file f).vn)
    (hflags : o.flags = (s.file f).flags) (hgranted : o.granted = (s.file f).granted) :
    Edits v s (s.setFile f o) := by
  refine ⟨rfl, rfl, rfl, fun g => ?_, fun _ _ => rfl⟩
  rw [file_setFile]
  split_ifs with hg
  · rw [hg]
    exact ⟨hvn, hflags, hgranted⟩
  · exact ⟨rfl, rfl, rfl⟩

theorem Edits.vn_eq (h : Edits v s s') (hfd : ∀ f, s.pFdTable fd = some f → (s.file f).vn = v) :
    ∀ f, s'.pFdTable fd = some f → (s'.file f).vn = v := by
  intro f hf
  rw [(h.file f).1]
  exact hfd f (h.fds ▸ hf)

section Calls
variable (hfd : ∀ f, s.pFdTable fd = some f → (s.file f).vn = v)
include hfd

variable {buf : List (BitVec 8)} {r : Option ℕ}

theorem edits_vfsWrite (hs : s.vfsWrite fd buf = some (r, s')) : Edits v s s' := by
  unfold State.vfsWrite at hs
  cases hf : s.pFdTable fd with
  | none =>
    rw [hf] at hs
    cases hs
    exact .refl v _
  | some f =>
    rw [hf] at hs
    dsimp only at hs
    split at hs
    · cases hs
    · cases hs
      exact .refl v s
    · cases hs
      obtain rfl := hfd f hf
      exact (edits_setVnode s _ _).trans (edits_setFile _ rfl rfl rfl)

variable {bufs : List (List (BitVec 8))}

theorem edits_writeLoop {total : ℕ}
    (hs : State.writeLoop fd s bufs total = some (r, s')) : Edits v s s' := by
  induction bufs generalizing s total with
  | nil =>
    obtain ⟨-, rfl⟩ := Prod.mk.inj (some.inj hs)
    exact .refl v s
  | cons buf rest ih =>
    unfold State.writeLoop at hs
    split at hs
    · cases hs
    · next t ht =>
      cases hs
      exact edits_vfsWrite hfd ht
    · next t ht =>
      cases hs
      exact edits_vfsWrite hfd ht
    · next n t ht =>
      have hedit := edits_vfsWrite hfd ht
      exact hedit.trans (ih (hedit.vn_eq hfd) hs)

theorem edits_sysWrite (hs : s.sysWrite fd buf = some (r, s')) : Edits v s s' := by
  unfold State.sysWrite at hs
  split at hs
  · cases hs
    exact .refl v s
  · split at hs
    · cases hs
      exact .refl v s
    · next f hf =>
      dsimp only at hs
      split_ifs at hs
      · cases hs
        exact edits_setFile v rfl rfl rfl
      · cases hs
        exact .refl v s
      · exact edits_writeLoop hfd hs

theorem edits_sysWritev (hs : State.sysWritev fd bufs s = some s') : Edits v s s' := by
  induction bufs generalizing s with
  | nil =>
    cases hs
    exact .refl v _
  | cons buf rest ih =>
    unfold State.sysWritev at hs
    split at hs
    · cases hs
    · next t ht =>
      cases hs
      exact edits_sysWrite hfd ht
    · next n t ht =>
      have hedit := edits_sysWrite hfd ht
      exact hedit.trans (ih (hedit.vn_eq hfd) hs)

omit hfd in
theorem edits_pwriteLoop {offset : ℕ}
    (hs : State.pwriteLoop v bufs offset s = some s') : Edits v s s' := by
  induction bufs generalizing s offset with
  | nil =>
    cases hs
    exact .refl v _
  | cons buf rest ih =>
    unfold State.pwriteLoop at hs
    split at hs
    · cases hs
    · cases hs
      exact .refl v _
    · next n w hw =>
      split_ifs at hs
      · cases hs
        exact edits_setVnode _ v n
      · exact (edits_setVnode s v n).trans (ih hs)

theorem edits_sysPwrite {offset : ℕ} (hs : s.sysPwrite fd buf offset = some s') : Edits v s s' := by
  unfold State.sysPwrite at hs
  split at hs
  · cases hs
    exact .refl v _
  · next f hf =>
    obtain rfl := hfd f hf
    dsimp only at hs
    split_ifs at hs
    · cases hs
      exact .refl _ _
    · exact edits_pwriteLoop hs

omit hfd in
theorem edits_setSize {size : ℕ} (hs : s.setSize v size = some s') : Edits v s s' := by
  obtain ⟨n, -, rfl⟩ := map_eq_some_iff.mp hs
  exact edits_setVnode s v n

theorem edits_sysFtruncate {length : ℤ} (hs : s.sysFtruncate fd length = some s') :
    Edits v s s' := by
  unfold State.sysFtruncate at hs
  split at hs
  · cases hs
    exact .refl v s
  · split at hs
    · cases hs
      exact .refl v s
    · next f hf =>
      rw [hfd f hf] at hs
      exact edits_setSize hs

theorem edits_sysFallocate {offset len : ℤ} (hs : s.sysFallocate fd offset len = some s') :
    Edits v s s' := by
  unfold State.sysFallocate at hs
  split at hs
  · cases hs
    exact .refl v s
  · next f hf =>
    rw [hfd f hf] at hs
    dsimp only at hs
    split_ifs at hs
    · cases hs
      exact .refl v s
    · exact edits_setSize hs
    · cases hs
      exact .refl v s

end Calls

theorem Sound.edits (h : Sound s) (he : Edits v s s') : Sound s' := by
  refine ⟨fun fd f hf => ?_, fun fd f hf => ?_, fun fd f hf hw => ?_⟩
  · rw [he.nextFile]
    exact h.allocated fd f (he.fds ▸ hf)
  · rw [he.nextVnode, (he.file f).1]
    exact h.exist fd f (he.fds ▸ hf)
  · rw [(he.file f).2.1] at hw
    rw [(he.file f).2.2]
    exact h.granted fd f (he.fds ▸ hf) hw

/-- The file of a descriptor, if open. -/
def State.vnOf (s : State) (fd : ℕ) : VPtr :=
  match s.pFdTable fd with
  | some f => (s.file f).vn
  | none => s.nextVnode

theorem vnOf_eq (s : State) (fd : ℕ) : ∀ f, s.pFdTable fd = some f → (s.file f).vn = s.vnOf fd := by
  intro f hf
  rw [State.vnOf, hf]

variable {c : Call}

theorem Sound.entitled (h : Sound s) (he : Edits (s.vnOf fd) s s')
    (hfd : c.descriptor s = some fd) (hok : s.OpenForWriting fd) (hv : v < s.nextVnode)
    (hedit : (s'.vnode v).node ≠ (s.vnode v).node) : Entitled s s' c v := by
  have hvn : v = s.vnOf fd := by
    by_contra hne
    exact hedit (by rw [he.other v hne])
  cases hf : s.pFdTable fd with
  | none =>
    rw [State.vnOf, hf] at hvn
    exact absurd hv (hvn ▸ Nat.lt_irrefl _)
  | some f =>
    refine ⟨fd, f, hfd, he.fds ▸ hf, ?_, ?_⟩
    · rw [(he.file f).1, vnOf_eq s fd f hf, hvn]
    · rw [(he.file f).2.2]
      exact h.granted fd f hf (hok f hf)

theorem grants_wOk {want perms r w x : ℕ} (h : grants want perms r w x = true)
    (hw : want &&& wOk ≠ 0) : grants wOk perms r w x = true := by
  simp only [grants, Bool.and_eq_true, Bool.not_eq_true', Bool.and_eq_false_iff, bne_eq_false_iff_eq,
    beq_eq_false_iff_ne] at h ⊢
  exact ⟨⟨.inl rfl, .inr (h.1.2.resolve_left hw)⟩, .inl rfl⟩

variable {flags : BitVec 32}

theorem permits_of_mayOpen (hw : Writable flags)
    (h : s.vfsMayOpen v flags = true) : (s.vnode v).attr.permits s.who.cred wOk = true := by
  have hwant : wanted flags &&& wOk ≠ 0 := by
    rcases hw with hw | hw <;> rw [wanted, hw] <;> decide
  rw [State.vfsMayOpen, Bool.or_eq_true, decide_eq_true_eq] at h
  rcases h with h | h
  · rw [h] at hwant
    exact absurd rfl hwant
  · unfold Attr.permits vfsPermission at h ⊢
    split_ifs at h ⊢
    · rfl
    · exact grants_wOk h hwant
    · exact grants_wOk h hwant
    · exact grants_wOk h hwant

theorem edits_truncate (hs : s.truncate v flags = some s') : Edits v s s' := by
  unfold State.truncate at hs
  split_ifs at hs
  · obtain ⟨n, -, rfl⟩ := map_eq_some_iff.mp hs
    exact edits_setVnode s v n
  · cases hs
    exact .refl v _

variable {created : Bool}

theorem openFile_cases (hs : s.openFile v flags created = some s') :
    s' = s ∨ ∃ t o, s.truncate v flags = some t ∧ s'.vnode = t.vnode ∧
      s'.nextVnode = t.nextVnode ∧ s'.file = update t.file t.nextFile o ∧
      s'.nextFile = t.nextFile + 1 ∧ o.vn = v ∧ o.flags = flags ∧
      (Writable flags → o.granted = true) ∧ s'.pFdTable = match s.freeFd 0 with
        | some fd => update t.pFdTable fd (some t.nextFile) | none => t.pFdTable := by
  unfold State.openFile at hs
  by_cases hmay : s.vfsMayOpen v flags = true
  · rw [if_neg (not_not.mpr hmay), bind_eq_bind, bind_eq_some_iff] at hs
    obtain ⟨t, ht, hs⟩ := hs
    have hfree : t.freeFd 0 = s.freeFd 0 := by
      rw [State.freeFd, (edits_truncate ht).fds, State.freeFd]
    have hgrant (hw : Writable flags) :
        (created || (decide (Writable flags) && (s.vnode v).attr.permits s.who.cred wOk)) =
          true := by
      rw [permits_of_mayOpen hw hmay, decide_eq_true hw, Bool.and_self, Bool.or_true]
    dsimp only at hs
    split at hs
    · next fd hfd =>
      have hfd' : s.freeFd 0 = some fd := hfree ▸ hfd
      cases hs
      refine .inr ⟨t, _, ht, rfl, rfl, rfl, rfl, rfl, rfl, hgrant, ?_⟩
      rw [hfd']
      rfl
    · next hfd =>
      have hfd' : s.freeFd 0 = none := hfree ▸ hfd
      cases hs
      refine .inr ⟨t, _, ht, rfl, rfl, rfl, rfl, rfl, rfl, hgrant, ?_⟩
      rw [hfd']
      rfl
  · rw [if_pos hmay] at hs
    exact .inl (some.inj hs).symm

theorem Sound.openFile (h : Sound s) (hv : v < s.nextVnode)
    (hs : s.openFile v flags created = some s') : Sound s' := by
  obtain rfl | ⟨t, o, ht, -, hnv, hfile, hnf, hvn, hflags, hgrant, hfds⟩ := openFile_cases hs
  · exact h
  · have hedit := edits_truncate ht
    have hsound := h.edits hedit
    have hold (fd f : ℕ) (hf : s'.pFdTable fd = some f) :
        f = t.nextFile ∨ t.pFdTable fd = some f := by
      rw [hfds] at hf
      split at hf
      · rw [update_apply] at hf
        split_ifs at hf
        · exact .inl (some.inj hf).symm
        · exact .inr hf
      · exact .inr hf
    have hkept {fd f : ℕ} (hf : t.pFdTable fd = some f) : s'.file f = t.file f := by
      rw [hfile, update_of_ne (Nat.ne_of_lt (hsound.allocated fd f hf))]
    have hnew : s'.file t.nextFile = o := by rw [hfile, update_self]
    refine ⟨fun fd f hf => ?_, fun fd f hf => ?_, fun fd f hf hw => ?_⟩
    · rcases hold fd f hf with rfl | hf
      · omega
      · have := hsound.allocated fd f hf
        omega
    · rw [hnv]
      rcases hold fd f hf with rfl | hf
      · rwa [hnew, hvn, hedit.nextVnode]
      · rw [hkept hf]
        exact hsound.exist fd f hf
    · rcases hold fd f hf with rfl | hf
      · rw [hnew, hflags] at hw
        rw [hnew]
        exact hgrant hw
      · rw [hkept hf] at hw ⊢
        exact hsound.granted fd f hf hw

theorem Sound.createVnode (h : Sound s) (name : Name) (mode : ℕ) :
    Sound (s.createVnode name mode) :=
  ⟨h.allocated, fun fd f hf => Nat.lt_succ_of_lt (h.exist fd f hf), h.granted⟩

theorem vnode_createVnode (name : Name) (mode : ℕ) (hw : w < s.nextVnode) :
    (s.createVnode name mode).vnode w = s.vnode w := update_of_ne (Nat.ne_of_lt hw) _ _

theorem openFile_entitled (hs : s.openFile v flags created = some s')
    (hc : c.descriptor s = s.freeFd 0)
    (hok : flags &&& oTrunc ≠ 0 → Writable flags ∧ s.freeFd 0 ≠ none)
    (hedit : (s'.vnode w).node ≠ (s.vnode w).node) : w = v ∧ Entitled s s' c w := by
  obtain rfl | ⟨t, o, ht, hvnode, -, hfile, -, hvn, -, hgrant, hfds⟩ := openFile_cases hs
  · exact absurd rfl hedit
  · have hwv : w = v := by
      by_contra hne
      exact hedit (by rw [hvnode, (edits_truncate ht).other w hne])
    have htrunc : flags &&& oTrunc ≠ 0 := by
      intro hzero
      rw [State.truncate, if_neg (not_not.mpr hzero)] at ht
      rw [hvnode, ← some.inj ht] at hedit
      exact hedit rfl
    obtain ⟨hw, hfree⟩ := hok htrunc
    obtain ⟨fd, hfd⟩ := ne_none_iff_exists'.mp hfree
    have hnew : s'.file t.nextFile = o := by rw [hfile, update_self]
    rw [hfd] at hfds
    refine ⟨hwv, fd, t.nextFile, hc.trans hfd, ?_, ?_, ?_⟩
    · rw [hfds]
      exact update_self fd _ _
    · rw [hnew, hvn, hwv]
    · rw [hnew]
      exact hgrant hw

theorem accMode_setfl (flags arg : BitVec 32) :
    accMode ((flags &&& ~~~0xfffffff) ||| (arg &&& 0xfffffff)) = accMode arg := by
  have hold : 3 &&& (flags &&& ~~~0xfffffff) = 0#32 := by
    rw [← BitVec.and_assoc, BitVec.and_comm 3 flags, BitVec.and_assoc,
      show (3 &&& ~~~0xfffffff : BitVec 32) = 0#32 by decide, BitVec.and_zero]
  have hnew : 3 &&& (arg &&& 0xfffffff) = arg &&& 3 := by
    rw [← BitVec.and_assoc, BitVec.and_comm 3 arg, BitVec.and_assoc,
      show (3 &&& 0xfffffff : BitVec 32) = 3 by decide]
  rw [accMode, BitVec.and_comm, BitVec.and_or_distrib_left, hold, hnew, accMode, BitVec.zero_or]

theorem Sound.sysFcntl {cmd : ℕ} {arg : BitVec 64} (h : Sound s)
    (hok : cmd = 4 → Writable (arg.setWidth 32) → s.OpenForWriting fd)
    (hs : s.sysFcntl fd cmd arg = some s') : Sound s' ∧ s'.vnode = s.vnode := by
  unfold State.sysFcntl at hs
  cases hf : s.pFdTable fd with
  | none =>
    rw [hf] at hs
    cases hs
    exact ⟨h, rfl⟩
  | some f =>
    rw [hf] at hs
    dsimp only at hs
    split_ifs at hs with hdup hmin hset
    · cases hs
      exact ⟨h, rfl⟩
    · split at hs
      · next newfd _ =>
        cases hs
        -- a second descriptor names the same open file
        have hold (i g : ℕ) (hg : update s.pFdTable newfd (some f) i = some g) :
            ∃ j, s.pFdTable j = some g := by
          rw [update_apply] at hg
          split_ifs at hg
          · exact ⟨fd, hf.trans hg⟩
          · exact ⟨i, hg⟩
        refine ⟨⟨fun i g hg => ?_, fun i g hg => ?_, fun i g hg hw => ?_⟩, rfl⟩
        · obtain ⟨j, hj⟩ := hold i g hg
          exact h.allocated j g hj
        · obtain ⟨j, hj⟩ := hold i g hg
          exact h.exist j g hj
        · obtain ⟨j, hj⟩ := hold i g hg
          exact h.granted j g hj hw
      · cases hs
        exact ⟨h, rfl⟩
    · cases hs
      refine ⟨⟨h.allocated, fun i g hg => ?_, fun i g hg hw => ?_⟩, rfl⟩
      · rw [file_setFile]
        split_ifs with hgf
        · exact h.exist fd f hf
        · exact h.exist i g hg
      · rw [file_setFile] at hw ⊢
        split_ifs at hw ⊢ with hgf
        · rw [Writable, accMode_setfl] at hw
          exact h.granted fd f hf (hok hset hw f hf)
        · exact h.granted i g hg hw
    · cases hs
      exact ⟨h, rfl⟩

/-- Every file of `s` that the call changes, it may change. -/
def Lawful (s s' : State) (c : Call) : Prop :=
  ∀ v < s.nextVnode, (s'.vnode v).node ≠ (s.vnode v).node → Entitled s s' c v

theorem Sound.vfsOpen {found : Found} {mode : ℕ} (h : Sound s)
    (hok : flags &&& oTrunc ≠ 0 → Writable flags ∧ s.freeFd 0 ≠ none)
    (hs : s.vfsOpen found flags mode = some s') : Sound s' ∧ Lawful s s' (.open found flags mode) := by
  have hsame : Sound s ∧ Lawful s s (.open found flags mode) :=
    ⟨h, fun v _ hedit => absurd rfl hedit⟩
  unfold State.vfsOpen at hs
  cases found with
  | neither =>
    cases hs
    exact hsame
  | file v =>
    dsimp only at hs
    split_ifs at hs with hv hexcl
    · cases hs
      exact hsame
    · exact ⟨h.openFile (Nat.lt_of_not_le hv) hs,
        fun w _ hedit => (openFile_entitled hs rfl hok hedit).2⟩
  | parent dvp name =>
    dsimp only at hs
    split_ifs at hs with hv hcreat hmay
    · cases hs
      exact hsame
    · refine ⟨(h.createVnode name _).openFile (Nat.lt_succ_self s.nextVnode) hs,
        fun w hw hedit => ?_⟩
      -- the only file that changes is the new one
      rw [← vnode_createVnode name (mode - (mode &&& s.who.umask)) hw] at hedit
      have hnew := (openFile_entitled (c := .open (.parent dvp name) flags mode) hs rfl hok hedit).1
      exact absurd hnew (Nat.ne_of_lt hw)
    · cases hs
      exact hsame

theorem Sound.call (h : Sound s) (hok : Careful s c) (hs : s.call c = some s') :
    Sound s' ∧ Lawful s s' c := by
  have hvia (fd : ℕ) (he : Edits (s.vnOf fd) s s') (hfd : c.descriptor s = some fd)
      (hopen : s.OpenForWriting fd) : Sound s' ∧ Lawful s s' c :=
    ⟨h.edits he, fun v hv hedit => h.entitled he hfd hopen hv hedit⟩
  cases c with
  | «open» found flags mode => exact h.vfsOpen hok hs
  | write fd buf =>
    obtain ⟨⟨r, t⟩, hp, rfl⟩ := map_eq_some_iff.mp hs
    exact hvia fd (edits_sysWrite (vnOf_eq s fd) hp) rfl hok.1
  | writev fd bufs => exact hvia fd (edits_sysWritev (vnOf_eq s fd) hs) rfl hok.1
  | pwrite fd buf offset => exact hvia fd (edits_sysPwrite (vnOf_eq s fd) hs) rfl hok.1
  | ftruncate fd length => exact hvia fd (edits_sysFtruncate (vnOf_eq s fd) hs) rfl hok
  | fallocate fd offset len => exact hvia fd (edits_sysFallocate (vnOf_eq s fd) hs) rfl hok
  | fcntl fd cmd arg =>
    obtain ⟨hsound, hvnode⟩ := h.sysFcntl hok hs
    exact ⟨hsound, fun v _ hedit => absurd (by rw [hvnode]) hedit⟩
  | close fd =>
    cases hs
    have hold (i g : ℕ) (hg : update s.pFdTable fd none i = some g) :
        s.pFdTable i = some g := by
      rw [update_apply] at hg
      split_ifs at hg
      exact hg
    exact ⟨⟨fun i g hg => h.allocated i g (hold i g hg), fun i g hg => h.exist i g (hold i g hg),
      fun i g hg => h.granted i g (hold i g hg)⟩, fun v _ hedit => absurd rfl hedit⟩

theorem Sound.step {e : Event} (h : Sound s) (hok : CarefulStep s e) (hs : step s e = some s') :
    Sound s' := by
  cases e with
  | call c => exact (h.call hok hs).1
  | others vnode new =>
    cases hs
    exact ⟨h.allocated, fun fd f hf => Nat.lt_add_right new (h.exist fd f hf), h.granted⟩

end Doppio.OpenRights
