import Doppio.Vfs.RamfsDir

/-! Paths and the calls of `kernel/vfs/vfs.c` that work on names, on one mounted `ramfs`. -/
namespace Doppio.Vfs

def slash : BitVec 8 := 0x2f

def dotdot : Name := [0x2e, 0x2e]

/-- One token; the last element of `stack` is its top. -/
def pushToken (absolute : Bool) (stack : List Name) (token : Name) : List Name :=
  if token = [] ∨ token = dot then stack
  else if token = dotdot then
    if stack ≠ [] ∧ stack.getLast? ≠ some dotdot then stack.dropLast
    else if ¬absolute ∧ stack.length < 64 then stack ++ [dotdot]
    else stack
  else if stack.length < 64 then stack ++ [token]
  else stack

/-- The loop that writes the tokens to `dst`. -/
def joinTokens (room : ℕ) : Bool → List Name → Name → Name
  | _, [], d => d
  | first, token :: rest, d =>
    let d := if ¬first ∧ d.length < room then d ++ [slash] else d
    if d.length + token.length < room then joinTokens room false rest (d ++ token) else d

/-- `sanitize_path` with a `dst` of 256 bytes. -/
def sanitizePath (src : Name) : Name :=
  let absolute : Bool := src.head? = some slash
  let stack := ((src.take 4095).splitOn slash).foldl (pushToken absolute) []
  let d := joinTokens 255 true stack (if absolute then [slash] else [])
  if d = [] then dot else d

/-- `parent_path` and `child_name` of a clean path. -/
def splitPath (path : Name) : Name × Name :=
  let child := (path.reverse.takeWhile (· ≠ slash)).reverse
  match path.reverse.dropWhile (· ≠ slash) with
  | [] => (dot, path)
  | [_] => ([slash], child)
  | _ :: parent => (parent.reverse, child)

/-- The components from `vfs_next_component`. -/
def components (path : Name) : List Name :=
  ((path.splitOn slash).filter (· ≠ [])).map (·.take 255)

namespace State

/-- One step of a walk: the cache, if used, else the directory. -/
def lookupChild (cached : Bool) (s : State) (curr : VPtr) (name : Name) :
    Option (Except Errno VPtr × State) :=
  match if cached then s.vfsCachedLookup curr name else none with
  | some (found, s) => some (.ok found, s)
  | none =>
    match s.ramfsLookup curr name with
    | some (.ok found, s) => some (.ok found, s.vfsHashInsert curr name found)
    | r => r

/-- A symbolic link's reference is given for one to what it names. -/
def followLink (resolve : VPtr → State → Option (Except Errno VPtr × State)) (curr : VPtr)
    (s : State) : Option (Except Errno VPtr × State) :=
  if (s.vnode curr).vtype = .lnk then (resolve curr s).map fun p => (p.1, p.2.vput curr)
  else some (.ok curr, s)

/-- The loop of `vfs_lookup_impl`. -/
def walk (cached : Bool) (resolve : VPtr → State → Option (Except Errno VPtr × State))
    (followLast : Bool) : List Name → VPtr → State → Option (Except Errno VPtr × State)
  | [], curr, s => if followLast then followLink resolve curr s else some (.ok curr, s)
  | name :: rest, curr, s =>
    match followLink resolve curr s with
    | none => none
    | some (.error e, s) => some (.error e, s)
    | some (.ok curr, s) =>
      if (s.vnode curr).vtype ≠ .dir then some (.error .ENOTDIR, s.vput curr)
      else
        match lookupChild cached s curr name with
        | none => none
        | some (.error e, s) => some (.error e, s.vput curr)
        | some (.ok found, s) => walk cached resolve followLast rest found (s.vput curr)

/-- `resolve_symlink`, with its lookup. -/
def resolveSymlink (lookup : Name → Option VPtr → State → Option (Except Errno VPtr × State))
    (link : VPtr) (s : State) : Option (Except Errno VPtr × State) :=
  if ¬(s.vnode link).hasData then none
  else
    let target := (s.vnode link).target.take 511
    let base :=
      if target.head? = some slash then some s.root
      else match (s.vnode link).vParent with
        | some parent => some parent
        | none => some s.cwd
    lookup target base s

/-- `vfs_lookup_impl`, with the levels left before `depth > 8`. Without `cached`,
`vfs_cached_lookup` always misses. -/
def vfsLookupImpl (cached : Bool) : ℕ → Bool → Name → Option VPtr → State →
    Option (Except Errno VPtr × State)
  | 0, _, _, _, s => some (.error .ELOOP, s)
  | levels + 1, followLast, path, base, s =>
    if path = [] then some (.error .ENOENT, s)
    else
      match if path.head? = some slash then some s.root else base with
      | none => some (.error .ENOENT, s)
      | some curr =>
        walk cached (resolveSymlink fun t b => vfsLookupImpl cached levels true t b) followLast
          (components path) curr (s.vref curr)

def vfsLookup (cached : Bool) (s : State) (path : Name) (base : Option VPtr) :
    Option (Except Errno VPtr × State) :=
  vfsLookupImpl cached 9 true path base s

variable (s : State)

section
variable (path : Name)

def lookupParent : Option (Except Errno VPtr × State) :=
  s.vfsLookup true (splitPath (sanitizePath path)).1 (some s.cwd)

def childName : Name := (splitPath (sanitizePath path)).2

/-- The body of `vfs_mkdir`, `vfs_rmdir`, `vfs_unlink` and `vfs_symlink`: an operation of the parent
on the last name. Devices have none. -/
def atParent {α : Type} (s : State) (path : Name)
    (op : State → VPtr → Name → Option (Except Errno α × State)) :
    Option (Except Errno α × State) :=
  match s.lookupParent path with
  | none => none
  | some (.error e, s) => some (.error e, s)
  | some (.ok dvp, s) =>
    if (s.vnode dvp).devOps then some (.error .ENOTSUP, s.vput dvp)
    else (op s dvp (childName path)).map fun p => (p.1, p.2.vput dvp)

def vfsMkdir : Option (Except Errno VPtr × State) :=
  s.atParent path ramfsMkdir

def vfsRmdir : Option (Except Errno Unit × State) :=
  s.atParent path ramfsRmdir

def vfsUnlink : Option (Except Errno Unit × State) :=
  s.atParent path ramfsRemove

def makeSymlink (target : Name) (s : State) (dvp : VPtr) (name : Name) :
    Option (Except Errno VPtr × State) :=
  match s.ramfsCreate dvp name .lnk with
  | some (.ok v, s) =>
    let s := s.vfsHashInsert dvp name v
    some (.ok v, (s.setVnode v fun n => { n with target }).vput v)
  | r => r

def vfsSymlink (target linkpath : Name) : Option (Except Errno VPtr × State) :=
  s.atParent linkpath (makeSymlink target)

def vfsRename (oldpath newpath : Name) : Option (Except Errno Unit × State) :=
  match s.lookupParent oldpath with
  | none => none
  | some (.error e, s) => some (.error e, s)
  | some (.ok sdvp, s) =>
    match s.lookupParent newpath with
    | none => none
    | some (.error e, s) => some (.error e, s.vput sdvp)
    | some (.ok tdvp, s) =>
      if (s.vnode sdvp).devOps then some (.error .ENOTSUP, (s.vput sdvp).vput tdvp)
      else
        (s.ramfsRename sdvp (childName oldpath) tdvp (childName newpath)).map fun p =>
          (p.1, (p.2.vput sdvp).vput tdvp)

/-- What `vfs_open` reads of its flags, and the answers of the permission checks and of the tables
of devices and files. -/
structure OpenArgs where
  creat : Bool
  excl : Bool
  type : VType
  mayCreate : Bool
  mayOpen : Bool
  hasCdev : Bool
  hasFd : Bool

/-- The branch of `vfs_open` that makes the file. -/
def openCreate (args : OpenArgs) : Option (Except Errno VPtr × State) :=
  match s.lookupParent path with
  | none => none
  | some (.error e, s) => some (.error e, s)
  | some (.ok dvp, s) =>
    if ¬args.mayCreate then some (.error .EACCES, s.vput dvp)
    else if (s.vnode dvp).devOps then none
    else
      match s.ramfsCreate dvp (childName path) args.type with
      | none => none
      | some (.error e, s) => some (.error e, s.vput dvp)
      | some (.ok vp, s) => some (.ok vp, (s.vfsHashInsert dvp (childName path) vp).vput dvp)

def openVnode (args : OpenArgs) : Option (Except Errno VPtr × State) :=
  match s.vfsLookup true (sanitizePath path) (some s.cwd) with
  | none => none
  | some (.error e, s) =>
    if e = .ENOENT ∧ args.creat then s.openCreate path args else some (.error e, s)
  | some (.ok vp, s) =>
    if args.excl ∧ args.creat then some (.error .EEXIST, s.vput vp) else some (.ok vp, s)

/-- A character device has the operations of its driver, if any. -/
def useCdev (vp : VPtr) (hasCdev : Bool) : State :=
  if (s.vnode vp).vtype = .chr ∧ hasCdev then s.setVnode vp fun n => { n with devOps := true }
  else s

def vfsOpen (args : OpenArgs) : Option (Except Errno VPtr × State) :=
  match s.openVnode path args with
  | none => none
  | some (.error e, s) => some (.error e, s)
  | some (.ok vp, s) =>
    if ¬args.mayOpen then some (.error .EACCES, s.vput vp)
    else
      let s := s.useCdev vp args.hasCdev
      if args.hasFd then some (.ok vp, { s with fds := s.fds ++ [vp] })
      else some (.error .EMFILE, s.vput vp)

end

/-- `vfs_close` of the file at this place in `fds`. -/
def vfsClose (fd : ℕ) : Option (Except Errno Unit × State) :=
  match s.fds[fd]? with
  | none => some (.error .EBADF, s)
  | some vp => some (.ok (), { s with fds := s.fds.eraseIdx fd }.vput vp)

end State

inductive Op where
  | open (path : Name) (args : State.OpenArgs)
  | close (fd : ℕ)
  | mkdir (path : Name)
  | rmdir (path : Name)
  | unlink (path : Name)
  | rename (oldpath newpath : Name)
  | symlink (target linkpath : Name)

def step (s : State) : Op → Option State
  | .open path args => (s.vfsOpen path args).map Prod.snd
  | .close fd => (s.vfsClose fd).map Prod.snd
  | .mkdir path => (s.vfsMkdir path).map Prod.snd
  | .rmdir path => (s.vfsRmdir path).map Prod.snd
  | .unlink path => (s.vfsUnlink path).map Prod.snd
  | .rename oldpath newpath => (s.vfsRename oldpath newpath).map Prod.snd
  | .symlink target linkpath => (s.vfsSymlink target linkpath).map Prod.snd

/-- The root of a new file system, also the working directory. -/
def rootVnode : Vnode := { Vnode.zero with refCount := 2, vtype := .dir, hasData := true }

/-- After `vfs_init` has made the root, before its first directory. -/
def init (addr : VPtr → ℕ) : State where
  vnode := fun v => if v = 0 then rootVnode else Vnode.zero
  vnodeHash := fun _ => []
  vnodeFreeList := []
  nextVnode := 1
  addr
  root := 0
  cwd := 0
  fds := []

end Doppio.Vfs
