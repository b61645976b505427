import Mathlib.Data.BitVec

/-! Type, permission bits and owners of a file of ext2, from `ext2_create` to the next `ext2_lookup`
that reads its inode from the disk (`kernel/vfs/ext2.c`). -/
namespace Doppio.Ext2
open Function

inductive FileType where
  | reg
  | dir
  | lnk
  | chr
  | blk
  deriving DecidableEq

/-- `S_IFREG` and so on, with the values of `EXT2_S_IFREG` and so on. -/
def FileType.bits : FileType → BitVec 16
  | .reg => 0o100000
  | .dir => 0o040000
  | .lnk => 0o120000
  | .chr => 0o020000
  | .blk => 0o060000

/-- The fields of `struct ext2_inode` that hold attributes. -/
structure Inode where
  iMode : BitVec 16
  iUid : BitVec 16
  iGid : BitVec 16

structure Attributes where
  type : FileType
  mode : BitVec 16
  uid : BitVec 32
  gid : BitVec 32
  deriving DecidableEq

/-- `i_mode` as `ext2_create` sets it. -/
def createMode (mode : BitVec 16) : BitVec 16 :=
  let typeMask := mode &&& 0o170000
  let type : FileType :=
    if typeMask = FileType.bits .dir then .dir
    else if typeMask = FileType.bits .lnk then .lnk
    else if typeMask = FileType.bits .chr then .chr
    else if typeMask = FileType.bits .blk then .blk
    else .reg
  type.bits ||| mode &&& 0o7777

/-- The type set by `ext2_create_vnode`. -/
def vnodeType (iMode : BitVec 16) : FileType :=
  if iMode &&& FileType.bits .dir ≠ 0 then .dir
  else if iMode &&& FileType.bits .reg ≠ 0 then .reg
  else if iMode &&& FileType.bits .lnk ≠ 0 then .lnk
  else if iMode &&& FileType.bits .blk ≠ 0 then .blk
  else if iMode &&& FileType.bits .chr ≠ 0 then .chr
  else .reg

/-- The vnode's type and what `ext2_getattr` tells. -/
def Inode.attributes (inode : Inode) : Attributes :=
  ⟨vnodeType inode.iMode, inode.iMode &&& 0o7777, inode.iUid.setWidth 32, inode.iGid.setWidth 32⟩

def ext2Create (table : ℕ → Inode) (ino : ℕ) (mode : BitVec 16) (euid egid : BitVec 32) :
    Inode × (ℕ → Inode) :=
  let inode : Inode := ⟨createMode mode, euid.setWidth 16, egid.setWidth 16⟩
  (inode, update table ino inode)

/-- The write-back of `ext2_inactive`. -/
def ext2Inactive (table : ℕ → Inode) (ino : ℕ) (inode : Inode) (reclaimable : Bool) : ℕ → Inode :=
  if reclaimable ∧ ino ≠ 0 then update table ino inode else table

/-- What `ext2_lookup` finds under `ino` once the new vnode has gone. -/
def recreated (table : ℕ → Inode) (ino : ℕ) (mode : BitVec 16) (euid egid : BitVec 32)
    (reclaimable : Bool) : Attributes :=
  let (inode, table) := ext2Create table ino mode euid egid
  (ext2Inactive table ino inode reclaimable ino).attributes

theorem recreated_eq (table : ℕ → Inode) (ino : ℕ) (mode : BitVec 16) (euid egid : BitVec 32)
    (r : Bool) : recreated table ino mode euid egid r =
      (ext2Create table ino mode euid egid).1.attributes := by
  simp only [recreated, ext2Create, ext2Inactive]
  split <;> simp

theorem and_permissions (mode c d : BitVec 16) (t : FileType) (hc : 0o7777 &&& c = d) :
    (t.bits ||| mode &&& 0o7777) &&& c = t.bits &&& c ||| mode &&& d := by
  rw [BitVec.and_or_distrib_right, BitVec.and_assoc, hc]

theorem createMode_permissions (t : FileType) (mode : BitVec 16) :
    createMode (t.bits ||| mode &&& 0o7777) = t.bits ||| mode &&& 0o7777 := by
  simp only [createMode, and_permissions mode 0o170000 0#16 t (by decide),
    and_permissions mode 0o7777 0o7777 t (by decide)]
  cases t <;> simp [FileType.bits]

-- A link's and a device's bits contain those of a type that is tested first.
theorem vnodeType_permissions (t : FileType) (mode : BitVec 16) :
    vnodeType (t.bits ||| mode &&& 0o7777) = t ↔ t = .reg ∨ t = .dir := by
  have htype (u : FileType) :
      (t.bits ||| mode &&& 0o7777) &&& u.bits = t.bits &&& u.bits := by
    rw [and_permissions mode u.bits 0#16 t (by cases u <;> decide), BitVec.and_zero, BitVec.or_zero]
  simp only [vnodeType, htype]
  cases t <;> decide

theorem setWidth_setWidth_eq_iff (id : BitVec 32) :
    (id.setWidth 16).setWidth 32 = id ↔ id.toNat < 2 ^ 16 := by
  rw [← BitVec.toNat_inj, BitVec.toNat_setWidth, BitVec.toNat_setWidth]
  omega

/-- A file found again is as its vnode was at creation, and that is what the caller has asked for
just for files and directories whose owners fit into 16 bits. -/
theorem recreated_eq_iff (table : ℕ → Inode) (ino : ℕ) (t : FileType) (mode : BitVec 16)
    (euid egid : BitVec 32) (r : Bool) :
    let asked := t.bits ||| mode &&& 0o7777
    recreated table ino asked euid egid r = (ext2Create table ino asked euid egid).1.attributes ∧
      (recreated table ino asked euid egid r = ⟨t, mode &&& 0o7777, euid, egid⟩ ↔
        (t = .reg ∨ t = .dir) ∧ euid.toNat < 2 ^ 16 ∧ egid.toNat < 2 ^ 16) := by
  have hmode : (t.bits ||| mode &&& 0o7777) &&& 0o7777 = mode &&& 0o7777 := by
    rw [and_permissions mode 0o7777 0o7777 t (by decide)]
    cases t <;> simp [FileType.bits]
  refine ⟨recreated_eq .., ?_⟩
  rw [recreated_eq]
  simp only [ext2Create, Inode.attributes, Attributes.mk.injEq, createMode_permissions, hmode,
    vnodeType_permissions, setWidth_setWidth_eq_iff, true_and]

theorem symlink_found_regular : recreated (fun _ => ⟨0, 0, 0⟩) 12 (FileType.bits .lnk ||| 0o777)
    0 0 true = ⟨.reg, 0o777, 0, 0⟩ := by
  decide

end Doppio.Ext2
