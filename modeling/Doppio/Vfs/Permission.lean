import Doppio.Vfs.TreeRuns

/-! The permission checks of `kernel/vfs/vfs.c`, and which calls that change directories ask
`vfs_permission` first. -/
namespace Doppio.Vfs
open Option Function

structure Cred where
  euid : ℕ
  egid : ℕ

/-- What `getattr` gives of a file besides its size. -/
structure Attr where
  mode : ℕ
  uid : ℕ
  gid : ℕ

def rOk : ℕ := 4
def wOk : ℕ := 2
def xOk : ℕ := 1

/-- The three tests for one class of users. -/
def grants (want perms r w x : ℕ) : Bool :=
  !(want &&& rOk != 0 && perms &&& r == 0) && !(want &&& wOk != 0 && perms &&& w == 0) &&
    !(want &&& xOk != 0 && perms &&& x == 0)

/-- `vfs_permission` returns 0. -/
def vfsPermission (cred : Cred) (want uid gid perms : ℕ) : Bool :=
  if cred.euid = 0 then true
  else if cred.euid = uid then grants want perms 0o400 0o200 0o100
  else if cred.egid = gid then grants want perms 0o040 0o020 0o010
  else grants want perms 0o004 0o002 0o001

/-- The check with the attributes of a file. -/
def Attr.permits (a : Attr) (cred : Cred) (want : ℕ) : Bool :=
  vfsPermission cred want a.uid a.gid (a.mode &&& 0o777)

/-- The type that `ramfs_create` makes. -/
def VType.ofMode (mode : ℕ) : VType :=
  match mode &&& 0o170000 with
  | 0 => .reg
  | 0o100000 => .reg
  | 0o040000 => .dir
  | 0o120000 => .lnk
  | 0o020000 => .chr
  | _ => .other

structure Caller where
  cred : Cred
  umask : ℕ

namespace State

section
variable (s : State)

variable (attr : VPtr → Attr)

/-- The answer of `vfs_permission` for the directory of a new file; a device has no `getattr` and is
not asked. -/
def mayCreate (who : Caller) (path : Name) : Bool :=
  match s.vfsLookup true (sanitizePath path) (some s.cwd) with
  | some (_, s) =>
    match s.lookupParent path with
    | some (.ok dvp, s) => (s.vnode dvp).devOps || (attr dvp).permits who.cred wOk
    | _ => true
  | none => true

end

variable {s s' t : State} {v d : VPtr} {path name : Name} {type : VType}
  {up : VPtr → Option VPtr} {base extra : VPtr → ℕ} {args : OpenArgs}

/-- `vfs_open` makes a file in this directory: it was found, and the check passed. -/
def CreatesIn (s : State) (path : Name) (args : OpenArgs) (d : VPtr) : Prop :=
  args.mayCreate = true ∧ ∃ u, s.lookupParent path = some (.ok d, u) ∧ (u.vnode d).devOps = false

variable {p : Except Errno VPtr × State}

/-- `vfs_open` makes its file here, after its own lookup has found none. -/
def OpensNew (s : State) (path : Name) (args : OpenArgs) (d : VPtr) : Prop :=
  ∃ t, s.vfsLookup true (sanitizePath path) (some s.cwd) = some (.error .ENOENT, t) ∧
    t.CreatesIn path args d

theorem OpensNew.permits {attr : VPtr → Attr} {who : Caller} (h : s.OpensNew path args d)
    (hmay : args.mayCreate = s.mayCreate attr who path) :
    (attr d).permits who.cred wOk = true := by
  obtain ⟨t, ht, hcreate, u, hu, hdev⟩ := h
  rw [hmay, State.mayCreate, ht] at hcreate
  dsimp only at hcreate
  rw [hu] at hcreate
  dsimp only at hcreate
  rwa [hdev] at hcreate

end State

def nobody : Caller := ⟨⟨1000, 1000⟩, 0o022⟩

end Doppio.Vfs
