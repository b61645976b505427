import Doppio.Vfs.OpenRights

/-! Who may change the mode and the owner of a file: `sys_chown`, `sys_fchown`, `sys_chmod` and
`sys_fchmod` of `kernel/sys/sys_getid.c`, and the calls that reach the same `setattr` to change a
size, on ramfs and ext2. -/
namespace Doppio.FileOwner
open Function Option
open Vfs
open OpenRights (Stat oTrunc wanted)

inductive Fs where
  | ramfs
  | ext2
  deriving DecidableEq

/-- What is kept of a uid or gid; 16 bits in ext2. -/
def Fs.ident : Fs → ℕ → ℕ
  | .ramfs, n => n
  | .ext2, n => n % 2 ^ 16

/-- What is kept of a size; 32 bits in ext2. -/
def Fs.length : Fs → ℕ → ℕ
  | .ramfs, n => n
  | .ext2, n => n % 2 ^ 32

structure File where
  fs : Fs
  vtype : VType
  attr : Attr
  size : ℕ

/-- `ramfs_setattr` and `ext2_setattr`. -/
def File.setattr (n : File) (st : Stat) : File :=
  { n with
    attr :=
      { mode := (st.mode.map (· &&& 0o7777)).getD n.attr.mode
        uid := (st.uid.map n.fs.ident).getD n.attr.uid
        gid := (st.gid.map n.fs.ident).getD n.attr.gid }
    size := if n.fs = .ramfs ∧ n.vtype ≠ .reg then n.size else n.fs.length st.size }

structure State where
  who : Caller
  file : ℕ → File
  nextFile : ℕ
  /-- the files that descriptors are open on -/
  fd : ℕ → Option ℕ

namespace State

def setattr (s : State) (v : ℕ) (st : Stat) : State :=
  { s with file := update s.file v ((s.file v).setattr st) }

variable (s : State)

/-- The checks of `vfs_chown_internal` and `sys_fchown`. -/
def mayChown (v : ℕ) (uid gid : Option ℕ) : Bool :=
  s.who.cred.euid = 0 ||
    !(uid.isSome && (s.file v).attr.uid ≠ s.who.cred.euid) &&
    !(gid.isSome && gid ≠ some s.who.cred.egid && s.who.cred.euid ≠ (s.file v).attr.uid)

def chown (v : ℕ) (uid gid : Option ℕ) : State :=
  if s.mayChown v uid gid then s.setattr v ⟨none, uid, gid, 0⟩ else s

def chmod (v : ℕ) (mode : ℕ) : State :=
  if s.who.cred.euid ≠ 0 ∧ (s.file v).attr.uid ≠ s.who.cred.euid then s
  else s.setattr v ⟨some (mode &&& 0o7777), none, none, 0⟩

def truncate (v : ℕ) (flags : BitVec 32) : State :=
  if flags &&& oTrunc ≠ 0 then s.setattr v ⟨none, none, none, 0⟩ else s

/-- The rest of `vfs_open` for a file that is there, with its descriptor. -/
def openFile (v : ℕ) (flags : BitVec 32) (fd : Option ℕ) : State :=
  if wanted flags ≠ 0 ∧ !(s.file v).attr.permits s.who.cred (wanted flags) then s
  else
    let s := s.truncate v flags
    fd.elim s fun fd => { s with fd := update s.fd fd (some v) }

def create (fs : Fs) (mode : ℕ) : State :=
  { s with
    file := update s.file s.nextFile
      ⟨fs, .ofMode mode, ⟨mode &&& 0o7777, fs.ident s.who.cred.euid, fs.ident s.who.cred.egid⟩, 0⟩
    nextFile := s.nextFile + 1 }

def grown (v : ℕ) (offset len : ℤ) : Option ℕ :=
  let requiredSize := (offset + len).bmod (2 ^ 64)
  if 0 ≤ offset ∧ 0 ≤ len ∧ ((s.file v).size : ℤ) < requiredSize then some requiredSize.toNat
  else none

end State

/-- A path is given by the file found, `none` for -1. -/
inductive Call where
  | chown (v : ℕ) (uid gid : Option ℕ)
  | fchown (fd : ℕ) (uid gid : Option ℕ)
  | chmod (v mode : ℕ)
  | fchmod (fd mode : ℕ)
  | ftruncate (fd : ℕ) (length : ℤ)
  | fallocate (fd : ℕ) (offset len : ℤ)
  | open (v : ℕ) (flags : BitVec 32) (fd : Option ℕ)
  /-- `vfs_open` that makes the file, in a directory that may be written -/
  | openNew (fs : Fs) (mode : ℕ) (flags : BitVec 32) (fd : Option ℕ)

namespace State

def call (s : State) : Call → State
  | .chown v uid gid => s.chown v uid gid
  | .fchown fd uid gid => (s.fd fd).elim s fun v => s.chown v uid gid
  | .chmod v mode => s.chmod v mode
  | .fchmod fd mode => (s.fd fd).elim s fun v => s.chmod v mode
  | .ftruncate fd length =>
    if length < 0 then s
    else (s.fd fd).elim s fun v => s.setattr v ⟨some 0, some 0, some 0, length.toNat⟩
  | .fallocate fd offset len => (s.fd fd).elim s fun v =>
    (s.grown v offset len).elim s fun size => s.setattr v ⟨some 0, some 0, some 0, size⟩
  | .open v flags fd => s.openFile v flags fd
  | .openNew fs mode flags fd =>
    (s.create fs (mode - (mode &&& s.who.umask))).openFile s.nextFile flags fd

/-- What is not refused to a stranger: a change of the group to their own, and of the size, which
sets the mode and both owners to 0. -/
def Kept (s : State) (v : ℕ) : Call → Prop
  | .chown w _ gid => w = v → gid ≠ some s.who.cred.egid
  | .fchown fd _ gid => s.fd fd = some v → gid ≠ some s.who.cred.egid
  | .ftruncate fd length => s.fd fd = some v → length < 0
  | .fallocate fd offset len => s.fd fd = some v → s.grown v offset len = none
  | _ => True

structure Stranger (s : State) (v : ℕ) : Prop where
  root : s.who.cred.euid ≠ 0
  owner : s.who.cred.euid ≠ (s.file v).attr.uid
  lt : v < s.nextFile

/-- Reached with the mode and the owners unchanged. -/
structure Same (v : ℕ) (s s' : State) : Prop where
  attr : (s'.file v).attr = (s.file v).attr
  who : s'.who = s.who
  next : s.nextFile ≤ s'.nextFile

variable {s s' : State} {v w : ℕ}

theorem Same.refl : Same v s s := ⟨rfl, rfl, le_rfl⟩

theorem Same.trans {s'' : State} (h : Same v s s') (h' : Same v s' s'') : Same v s s'' :=
  ⟨h'.attr.trans h.attr, h'.who.trans h.who, h.next.trans h'.next⟩

theorem same_elim {α : Type*} {o : Option α} {f : α → State}
    (h : ∀ a, o = some a → Same v s (f a)) : Same v s (o.elim s f) := by
  cases o with
  | none => exact .refl
  | some a => exact h a rfl

theorem Stranger.of_same (h : s.Stranger v) (h' : Same v s s') : s'.Stranger v := by
  constructor
  · rw [h'.who]
    exact h.root
  · rw [h'.who, h'.attr]
    exact h.owner
  · exact h.lt.trans_le h'.next

theorem same_setattr {st : Stat} (h : w = v → st.mode = none ∧ st.uid = none ∧ st.gid = none) :
    Same v s (s.setattr w st) := by
  refine ⟨?_, rfl, le_rfl⟩
  simp only [State.setattr, update_apply]
  split_ifs with hv
  · subst hv
    obtain ⟨hmode, huid, hgid⟩ := h rfl
    simp [File.setattr, hmode, huid, hgid]
  · rfl

theorem Stranger.same_chown (h : s.Stranger v) {uid gid : Option ℕ}
    (hgid : w = v → gid ≠ some s.who.cred.egid) : Same v s (s.chown w uid gid) := by
  unfold chown
  split_ifs with hmay
  · apply same_setattr
    rintro rfl
    have hroot := h.root
    have howner := h.owner
    simp only [mayChown] at hmay
    grind [isNone_iff_eq_none]
  · exact .refl

theorem Stranger.same_chmod (h : s.Stranger v) {mode : ℕ} : Same v s (s.chmod w mode) := by
  unfold chmod
  split_ifs with hmay
  · exact .refl
  · apply same_setattr
    rintro rfl
    exact absurd ⟨h.root, h.owner.symm⟩ hmay

theorem same_openFile {flags : BitVec 32} {fd : Option ℕ} : Same v s (s.openFile w flags fd) := by
  have htrunc : Same v s (s.truncate w flags) := by
    unfold truncate
    split_ifs
    · exact same_setattr fun _ => ⟨rfl, rfl, rfl⟩
    · exact .refl
  unfold openFile
  split_ifs
  · exact .refl
  · cases fd with
    | none => exact htrunc
    | some fd => exact ⟨htrunc.attr, htrunc.who, htrunc.next⟩

theorem Stranger.same_call (h : s.Stranger v) {c : Call} (hok : s.Kept v c) : Same v s (s.call c) := by
  cases c with
  | chown w uid gid => exact h.same_chown hok
  | fchown fd uid gid => exact same_elim fun w hfd => h.same_chown fun hw => hok (hw ▸ hfd)
  | chmod w mode => exact h.same_chmod
  | fchmod fd mode => exact same_elim fun w _ => h.same_chmod
  | ftruncate fd length =>
    simp only [call]
    split_ifs with hneg
    · exact .refl
    · exact same_elim fun w hfd => same_setattr fun hw => absurd (hok (hw ▸ hfd)) hneg
  | fallocate fd offset len =>
    refine same_elim fun w hfd => same_elim fun size hsize => same_setattr fun hw => ?_
    have hnone := hok (hw ▸ hfd)
    simp [hw, hnone] at hsize
  | «open» w flags fd => exact same_openFile
  | openNew fs mode flags fd =>
    have hcreate : Same v s (s.create fs (mode - (mode &&& s.who.umask))) :=
      ⟨by simp [create, h.lt.ne], rfl, Nat.le_succ _⟩
    exact hcreate.trans same_openFile

/-- A stranger's calls leave the mode and the owners of a file as they are. -/
theorem Stranger.reaches_attr (h : s.Stranger v)
    (hs : Run.Reaches (fun s c s' => s' = s.call c) (fun s c => s.Kept v c) s s') :
    (s'.file v).attr = (s.file v).attr := by
  have hsame : s'.Stranger v ∧ Same v s s' := by
    refine hs.invariant (I := fun t => t.Stranger v ∧ Same v s t) ?_ ⟨h, .refl⟩
    rintro t c _ ⟨ht, hst⟩ hok rfl
    have := ht.same_call hok
    exact ⟨ht.of_same this, hst.trans this⟩
  exact hsame.2.attr

/-- A file of user 5, open for reading in a process of user 1000. -/
def shared : State where
  who := ⟨⟨1000, 1000⟩, 0o022⟩
  file := fun _ => ⟨.ramfs, .reg, ⟨0o644, 5, 5⟩, 10⟩
  nextFile := 1
  fd := fun _ => some 0

theorem Stranger.reaches_attr_chown :
    ((shared.call (.chown 0 (some 1000) (some 7))).file 0).attr = ⟨0o644, 5, 5⟩ :=
  Stranger.reaches_attr (v := 0) ⟨by decide, by decide, by decide⟩
    (.single (.chown 0 (some 1000) (some 7)) (by simp [Kept, shared]) rfl)

/-- A process that may only read the file sets its size, and the file is now of root. -/
theorem ftruncate_takes_file :
    shared.Stranger 0 ∧ ((shared.call (.ftruncate 3 10)).file 0).attr = ⟨0, 0, 0⟩ :=
  ⟨⟨by decide, by decide, by decide⟩, rfl⟩

/-- The file that a call works on, if it is there. -/
def target (s : State) : Call → Option ℕ
  | .chown v _ _ => some v
  | .chmod v _ => some v
  | .open v _ _ => some v
  | .openNew .. => none
  | .fchown fd _ _ => s.fd fd
  | .fchmod fd _ => s.fd fd
  | .ftruncate fd _ => s.fd fd
  | .fallocate fd _ _ => s.fd fd

/-- What a call is not for stays as it was, with contents `xs`. -/
def Framed (n n' : File) (xs : List (BitVec 8)) : Call → Prop
  | .ftruncate .. => n'.attr = n.attr
  | .fallocate .. => n'.attr = n.attr ∧ n.size ≤ n'.size
  | .open .. => True
  | .openNew .. => True
  | _ => n'.size = n.size ∧ ByteFile.resize xs n'.size = xs

/-- The call is refused or changes nothing. -/
def Harmless (s : State) (v : ℕ) : Call → Prop
  | .chown _ uid gid => s.mayChown v uid gid → (s.file v).size = 0
  | .fchown _ uid gid => s.mayChown v uid gid → (s.file v).size = 0
  | .chmod .. =>
    ¬(s.who.cred.euid ≠ 0 ∧ (s.file v).attr.uid ≠ s.who.cred.euid) → (s.file v).size = 0
  | .fchmod .. =>
    ¬(s.who.cred.euid ≠ 0 ∧ (s.file v).attr.uid ≠ s.who.cred.euid) → (s.file v).size = 0
  | .ftruncate _ length => 0 ≤ length → (s.file v).attr = ⟨0, 0, 0⟩
  | .fallocate _ offset len => ∀ size, s.grown v offset len = some size →
    (s.file v).attr = ⟨0, 0, 0⟩ ∧ (s.file v).size ≤ (s.file v).fs.length size
  | _ => True

theorem attr_setattr_zero (s : State) (v size : ℕ) :
    ((s.setattr v ⟨some 0, some 0, some 0, size⟩).file v).attr = ⟨0, 0, 0⟩ := by
  simp only [State.setattr, Function.update_self, File.setattr]
  cases (s.file v).fs <;> rfl

section
variable {xs : List (BitVec 8)} (hreg : (s.file v).vtype = .reg)
include hreg

theorem size_setattr (st : Stat) :
    ((s.setattr v st).file v).size = (s.file v).fs.length st.size := by
  simp only [State.setattr, Function.update_self]
  exact if_neg fun h => h.2 hreg

variable (hxs : xs.length = (s.file v).size)
include hxs

/-- The calls for the mode and the owners hand on the size 0. -/
theorem kept_iff {p : Prop} [Decidable p] {st : Stat} (hst : st.size = 0) :
    (((if p then s.setattr v st else s).file v).size = (s.file v).size ∧
      ByteFile.resize xs ((if p then s.setattr v st else s).file v).size = xs) ↔
      (p → (s.file v).size = 0) := by
  have hzero : (s.file v).fs.length 0 = 0 := by cases (s.file v).fs <;> rfl
  by_cases hp : p
  · rw [if_pos hp, size_setattr hreg, hst, hzero]
    constructor
    · rintro ⟨h, -⟩ -
      exact h.symm
    · intro h
      refine ⟨(h hp).symm, ?_⟩
      rw [← h hp, ← hxs, ByteFile.resize_length]
  · rw [if_neg hp, ← hxs, ByteFile.resize_length]
    exact ⟨fun _ h => absurd h hp, fun _ => ⟨rfl, rfl⟩⟩

/-- A call on a regular file keeps to what it is for just when it is refused or changes nothing. -/
theorem framed_iff {c : Call} (hc : s.target c = some v) :
    Framed (s.file v) ((s.call c).file v) xs c ↔ s.Harmless v c := by
  have hmode (mode : ℕ) : (((s.chmod v mode).file v).size = (s.file v).size ∧
      ByteFile.resize xs ((s.chmod v mode).file v).size = xs) ↔
      (¬(s.who.cred.euid ≠ 0 ∧ (s.file v).attr.uid ≠ s.who.cred.euid) → (s.file v).size = 0) := by
    rw [chmod, ← ite_not]
    exact kept_iff hreg hxs rfl
  cases c with
  | chown w uid gid =>
    cases hc
    exact kept_iff hreg hxs rfl
  | chmod w mode =>
    cases hc
    exact hmode mode
  | fchown fd uid gid =>
    rw [target] at hc
    rw [call, hc]
    exact kept_iff hreg hxs rfl
  | fchmod fd mode =>
    rw [target] at hc
    rw [call, hc]
    exact hmode mode
  | ftruncate fd length =>
    rw [target] at hc
    rw [call, hc, Framed]
    by_cases hneg : length < 0
    · rw [if_pos hneg]
      exact iff_of_true rfl fun h => absurd hneg (not_lt.mpr h)
    · rw [if_neg hneg, elim_some, attr_setattr_zero]
      exact ⟨fun h _ => h.symm, fun h => (h (not_lt.mp hneg)).symm⟩
  | fallocate fd offset len =>
    rw [target] at hc
    rw [call, hc, Harmless, Framed, elim_some]
    cases hgrown : s.grown v offset len with
    | none => exact iff_of_true ⟨rfl, le_rfl⟩ fun size h => nomatch h
    | some size =>
      rw [elim_some, attr_setattr_zero, size_setattr hreg]
      constructor
      · rintro ⟨hattr, hsize⟩ _ ⟨⟩
        exact ⟨hattr.symm, hsize⟩
      · intro h
        exact ⟨(h size rfl).1.symm, (h size rfl).2⟩
  | «open» w flags fd => exact Iff.rfl
  | openNew fs mode flags fd => exact Iff.rfl

end

theorem framed_iff_empty : ((shared.create .ramfs 0o100644).file 1).size = 0 ∧
    Framed ((shared.create .ramfs 0o100644).file 1)
      (((shared.create .ramfs 0o100644).call (.chmod 1 0o600)).file 1) [] (.chmod 1 0o600) :=
  ⟨rfl, (framed_iff rfl rfl rfl).mpr fun _ => rfl⟩

/-- A file of 10 bytes is empty after `chmod` by its owner. One made longer loses its mode and
owners, and one of ext2 can become shorter. -/
theorem chmod_empties_file :
    (({ shared with who := ⟨⟨5, 5⟩, 0⟩ }.call (.chmod 0 0o600)).file 0).size = 0 ∧
      ((shared.call (.fallocate 3 0 20)).file 0).attr = ⟨0, 0, 0⟩ ∧
      (({ shared with file := fun _ => ⟨.ext2, .reg, ⟨0o644, 5, 5⟩, 10⟩ }.call
        (.fallocate 3 0 (2 ^ 32 + 5))).file 0).size = 5 := by
  refine ⟨rfl, rfl, ?_⟩
  decide +kernel

end State

end Doppio.FileOwner
