import Doppio.Library.RedBlack

/-! The pointer red-black tree of `kernel/mm/vma.c`. Nodes are addresses, `none` is null, and a
function returns `none` when it dereferences null or does not come back. The mirrored branches of
the source are one definition over the side. -/
namespace Doppio
open RedBlack

abbrev Ptr := ℕ

/-- Turns of a pointer loop; its areas have distinct 64-bit start addresses. -/
def loopBound : ℕ := 2 ^ 65

/-- The tree fields of a `struct vm_area`. -/
@[ext] structure RbLinks where
  rbParent : Option Ptr
  rbLeft : Option Ptr
  rbRight : Option Ptr
  rbColor : Color
  deriving DecidableEq

namespace RbLinks

def child (l : RbLinks) : Side → Option Ptr
  | .left => l.rbLeft
  | .right => l.rbRight

def setChild (l : RbLinks) (d : Side) (v : Option Ptr) : RbLinks :=
  match d with
  | .left => { l with rbLeft := v }
  | .right => { l with rbRight := v }

def setParent (l : RbLinks) (p : Option Ptr) : RbLinks := { l with rbParent := p }

def setColor (l : RbLinks) (c : Color) : RbLinks := { l with rbColor := c }

variable (d : Side)

/-- Links by the side of the children. -/
def mk' (parent near far : Option Ptr) (c : Color) : RbLinks :=
  match d with
  | .left => ⟨parent, near, far, c⟩
  | .right => ⟨parent, far, near, c⟩

theorem mk'_flip (p s t : Option Ptr) (c : Color) :
    mk' d.flip p s t c = mk' d p t s c := by cases d <;> rfl

@[simp] theorem mk'_parent (p s t : Option Ptr) (c : Color) :
    (mk' d p s t c).rbParent = p := by cases d <;> rfl

@[simp] theorem mk'_color (p s t : Option Ptr) (c : Color) :
    (mk' d p s t c).rbColor = c := by cases d <;> rfl

@[simp] theorem mk'_child (p s t : Option Ptr) (c : Color) :
    (mk' d p s t c).child d = s := by cases d <;> rfl

@[simp] theorem mk'_child_flip (p s t : Option Ptr) (c : Color) :
    (mk' d p s t c).child d.flip = t := by cases d <;> rfl

@[simp] theorem mk'_setChild (p s t v : Option Ptr) (c : Color) :
    (mk' d p s t c).setChild d v = mk' d p v t c := by cases d <;> rfl

@[simp] theorem mk'_setChild_flip (p s t v : Option Ptr) (c : Color) :
    (mk' d p s t c).setChild d.flip v = mk' d p s v c := by cases d <;> rfl

@[simp] theorem mk'_setParent (p s t v : Option Ptr) (c : Color) :
    (mk' d p s t c).setParent v = mk' d v s t c := by cases d <;> rfl

@[simp] theorem mk'_setColor (p s t : Option Ptr) (c e : Color) :
    (mk' d p s t c).setColor e = mk' d p s t e := by cases d <;> rfl

end RbLinks

structure RbHeap where
  root : Option Ptr
  links : Ptr → RbLinks

namespace RbHeap

section
variable (h : RbHeap)

def setLinks (a : Ptr) (l : RbLinks) : RbHeap :=
  { h with links := Function.update h.links a l }

@[simp] theorem setLinks_links (a b : Ptr) (l : RbLinks) :
    (h.setLinks a l).links b = if b = a then l else h.links b := by
  simp [setLinks, Function.update_apply]

def setChild (h : RbHeap) (d : Side) (a : Ptr) (v : Option Ptr) : RbHeap :=
  h.setLinks a ((h.links a).setChild d v)

def rbColor (h : RbHeap) : Option Ptr → Color
  | none => .black
  | some v => (h.links v).rbColor

def rbSetColor (v : Option Ptr) (c : Color) : RbHeap :=
  match v with
  | none => h
  | some v => h.setLinks v ((h.links v).setColor c)

def rbParent (h : RbHeap) : Option Ptr → Option Ptr
  | none => none
  | some v => (h.links v).rbParent

def rbSetParent (v p : Option Ptr) : RbHeap :=
  match v with
  | none => h
  | some v => h.setLinks v ((h.links v).setParent p)

/-- Put `y` where `p` (the root, when null) points to `x`; the side tested first differs between the
callers. -/
def relink (d : Side) (p : Option Ptr) (x : Ptr) (y : Option Ptr) : RbHeap :=
  match p with
  | none => { h with root := y }
  | some p =>
    if (h.links p).child d = some x then h.setChild d p y else h.setChild d.flip p y

/-- `rb_rotate_left` for `d = left`, `rb_rotate_right` for `d = right`. -/
def rbRotate (d : Side) (h : RbHeap) (x : Ptr) : Option RbHeap := do
  let y ← (h.links x).child d.flip
  let b := (h.links y).child d
  let h := h.setChild d.flip x b
  let h := h.rbSetParent b (some x)
  let h := h.setChild d y (some x)
  let p := h.rbParent (some x)
  let h := h.relink d p x (some y)
  let h := h.rbSetParent (some y) p
  pure (h.rbSetParent (some x) (some y))

def rbRotateLeft (x : Ptr) : Option RbHeap := rbRotate .left h x

def rbRotateRight (x : Ptr) : Option RbHeap := rbRotate .right h x

end

/-- The last three lines of a branch of `rb_insert_fixup` that rotates `g`. -/
def rbInsertFixupRotate (d : Side) (h : RbHeap) (p g : Option Ptr) : Option RbHeap := do
  let h := h.rbSetColor p .black
  let h := h.rbSetColor g .red
  rbRotate d.flip h (← g)

/-- One turn of `rb_insert_fixup` when `p` is the `d`-child of `g`: the heap and the new `z`. -/
def rbInsertFixupStep (d : Side) (h : RbHeap) (z p g : Ptr) : Option (RbHeap × Ptr) :=
  let u := (h.links g).child d.flip
  if h.rbColor u = .red then
    let h := h.rbSetColor (some p) .black
    let h := h.rbSetColor u .black
    let h := h.rbSetColor (some g) .red
    some (h, g)
  else if (h.links p).child d.flip = some z then do
    let h ← rbRotate d h p
    let q := h.rbParent (some p)
    let h ← rbInsertFixupRotate d h q (h.rbParent q)
    pure (h, p)
  else do
    let h ← rbInsertFixupRotate d h (some p) (some g)
    pure (h, z)

def rbInsertFixupLoop : ℕ → RbHeap → Ptr → Option RbHeap
  | 0, _, _ => none
  | n + 1, h, z =>
    if h.rbColor (h.rbParent (some z)) = .red then do
      let p ← h.rbParent (some z)
      let g ← h.rbParent (some p)
      let d := if (h.links g).rbLeft = some p then Side.left else Side.right
      let (h, z) ← rbInsertFixupStep d h z p g
      rbInsertFixupLoop n h z
    else some h

def rbInsertFixup (h : RbHeap) (z : Ptr) : Option RbHeap := do
  let h ← rbInsertFixupLoop loopBound h z
  pure (h.rbSetColor h.root .black)

def rbTransplant (h : RbHeap) (u : Ptr) (v : Option Ptr) : RbHeap :=
  let up := h.rbParent (some u)
  let h := h.relink .left up u v
  h.rbSetParent v up

def rbMinimumLoop : ℕ → RbHeap → Ptr → Option Ptr
  | 0, _, _ => none
  | n + 1, h, v =>
    match (h.links v).rbLeft with
    | none => some v
    | some l => rbMinimumLoop n h l

def rbMinimum (h : RbHeap) : Option Ptr → Option (Option Ptr)
  | none => some none
  | some v => (rbMinimumLoop loopBound h v).map some

/-- `x == xp->rb_left`, or `otherwise` when `xp` is null. -/
def isLeftOf (h : RbHeap) (x : Ptr) (xp : Option Ptr) (otherwise : Bool) : Bool :=
  match xp with
  | none => otherwise
  | some xp => (h.links xp).rbLeft = some x

/-- The first test in a branch of `rb_erase_fixup`: a red sibling is rotated up. -/
def rbEraseRedSibling (d : Side) (h : RbHeap) (xp : Ptr) : Option RbHeap :=
  let w := (h.links xp).child d.flip
  if h.rbColor w = .red then
    let h := h.rbSetColor w .black
    let h := h.rbSetColor (some xp) .red
    rbRotate d h xp
  else some h

/-- The inner test: a sibling with a red child on the near side only is turned around. -/
def rbEraseTurnSibling (d : Side) (h : RbHeap) (w : Ptr) : Option RbHeap :=
  if h.rbColor ((h.links w).child d.flip) = .black then
    let h := h.rbSetColor ((h.links w).child d) .black
    let h := h.rbSetColor (some w) .red
    rbRotate d.flip h w
  else some h

/-- One turn of `rb_erase_fixup` when `x` is the `d`-child of `xp`: the next `x`, `xp` and
`x_is_left`, or the `x` that a `break` leaves. -/
def rbEraseFixupStep (d : Side) (h : RbHeap) (xp : Ptr) (xIsLeft : Bool) :
    Option (RbHeap × (Option Ptr × Option Ptr × Bool ⊕ Option Ptr)) := do
  let h ← rbEraseRedSibling d h xp
  let w ← (h.links xp).child d.flip
  if h.rbColor ((h.links w).child d) = .black ∧ h.rbColor ((h.links w).child d.flip) = .black then
    let h := h.rbSetColor (some w) .red
    let x := xp
    let xp := h.rbParent (some x)
    some (h, .inl (some x, xp, h.isLeftOf x xp xIsLeft))
  else do
    let h ← rbEraseTurnSibling d h w
    let w ← (h.links xp).child d.flip
    let h := h.rbSetColor (some w) (h.rbColor (some xp))
    let h := h.rbSetColor (some xp) .black
    let h := h.rbSetColor ((h.links w).child d.flip) .black
    let h ← rbRotate d h xp
    some (h, .inr h.root)

/-- The loop of `rb_erase_fixup`, with the `x` it leaves. -/
def rbEraseFixupLoop : ℕ → RbHeap → Option Ptr → Option Ptr → Bool → Option (RbHeap × Option Ptr)
  | 0, _, _, _, _ => none
  | n + 1, h, x, xp, xIsLeft =>
    if x ≠ h.root ∧ h.rbColor x = .black then do
      let p ← xp
      match ← rbEraseFixupStep (if xIsLeft then .left else .right) h p xIsLeft with
      | (h, .inl (x, xp, xIsLeft)) => rbEraseFixupLoop n h x xp xIsLeft
      | (h, .inr x) => some (h, x)
    else some (h, x)

variable (h : RbHeap)

def rbEraseFixup (x xp : Option Ptr) (xIsLeft : Bool) : Option RbHeap := do
  let (h, x) ← rbEraseFixupLoop loopBound h x xp xIsLeft
  pure (h.rbSetColor x .black)

/-- The last statement of `rb_erase_node`. -/
def rbEraseRepair (yColor : Color) (x xp : Option Ptr) (xIsLeft : Bool) : Option RbHeap :=
  if yColor = .black then rbEraseFixup h x xp xIsLeft else some h

/-- Take the successor `y` of `z` out of its place below `z`: the heap, `xp` and `x_is_left`. -/
def rbEraseDetach (z y : Ptr) (x : Option Ptr) : Option (RbHeap × Ptr × Bool) :=
  if h.rbParent (some y) = some z then some (h, y, false)
  else do
    let xp ← h.rbParent (some y)
    -- when `x` is not null the source asks for the side of `x` while `y` still hangs there
    let xIsLeft := match x with
      | some x => decide ((h.links xp).rbLeft = some x)
      | none => decide ((h.links xp).rbLeft = some y)
    let h := h.rbTransplant y (h.links y).rbRight
    let h := h.setChild .right y (h.links z).rbRight
    pure (h.rbSetParent (h.links y).rbRight (some y), xp, xIsLeft)

/-- Put `y` into the place of `z`. -/
def rbEraseReplace (z y : Ptr) : RbHeap :=
  let h := h.rbTransplant z (some y)
  let h := h.setChild .left y (h.links z).rbLeft
  let h := h.rbSetParent (h.links y).rbLeft (some y)
  h.rbSetColor (some y) (h.rbColor (some z))

def rbEraseNode (z : Ptr) : Option RbHeap :=
  match (h.links z).rbLeft, (h.links z).rbRight with
  | none, r =>
    let xp := h.rbParent (some z)
    let xIsLeft := h.isLeftOf z xp false
    (h.rbTransplant z r).rbEraseRepair (h.rbColor (some z)) r xp xIsLeft
  | some l, none =>
    let xp := h.rbParent (some z)
    let xIsLeft := h.isLeftOf z xp false
    (h.rbTransplant z (some l)).rbEraseRepair (h.rbColor (some z)) (some l) xp xIsLeft
  | some _, some r => do
    let y ← (← h.rbMinimum (some r))
    let yColor := h.rbColor (some y)
    let x := (h.links y).rbRight
    let (h, xp, xIsLeft) ← h.rbEraseDetach z y x
    (h.rbEraseReplace z y).rbEraseRepair yColor x (some xp) xIsLeft

end RbHeap
end Doppio
