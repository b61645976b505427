import Mathlib.Tactic

/-! Red-black trees with a zipper: a position is a list of frames, innermost first, and a subtree;
the colour and height rules are stated for both, symmetric in the side of a child. -/
namespace RedBlack
open List

inductive Color where
  | red | black
  deriving DecidableEq, Repr

inductive Side where
  | left | right
  deriving DecidableEq, Repr

def Side.flip : Side → Side
  | .left => .right
  | .right => .left

theorem Side.eq_or_eq_flip (d e : Side) : e = d ∨ e = d.flip := by
  cases d <;> cases e <;> simp [Side.flip]

inductive RbTree (α : Type*) where
  | nil
  | node (c : Color) (l : RbTree α) (a : α) (r : RbTree α)
  deriving DecidableEq

variable {α : Type*}

namespace RbTree

/-- The node with key `a`, child `near` on side `d` and `far` on the other. -/
def mk (d : Side) (c : Color) (near : RbTree α) (a : α) (far : RbTree α) : RbTree α :=
  match d with
  | .left => .node c near a far
  | .right => .node c far a near

theorem mk_flip (d : Side) (c : Color) (s t : RbTree α) (a : α) :
    mk d.flip c s a t = mk d c t a s := by cases d <;> rfl

theorem node_eq_mk (c : Color) (l r : RbTree α) (a : α) (d : Side) :
    ∃ s t, node c l a r = mk d c s a t := by
  cases d
  · exact ⟨l, r, rfl⟩
  · exact ⟨r, l, rfl⟩

def top : RbTree α → Option α
  | nil => none
  | node _ _ a _ => some a

variable {t : RbTree α} {n : ℕ}

@[simp] theorem top_nil : (nil : RbTree α).top = none := rfl

@[simp] theorem top_node (c : Color) (l r : RbTree α) (a : α) : (node c l a r).top = some a := rfl

@[simp] theorem top_mk (d : Side) (c : Color) (s t : RbTree α) (a : α) :
    (mk d c s a t).top = some a := by cases d <;> rfl

theorem exists_top {t : RbTree α} (h : t ≠ .nil) : ∃ a, t.top = some a := by
  cases t with
  | nil => exact absurd rfl h
  | node _ _ a _ => exact ⟨a, rfl⟩

def color : RbTree α → Color
  | nil => .black
  | node c _ _ _ => c

section
variable (c : Color)

@[simp] theorem color_node (l r : RbTree α) (a : α) : (node c l a r).color = c := rfl

@[simp] theorem color_mk (d : Side) (c : Color) (s t : RbTree α) (a : α) :
    (mk d c s a t).color = c := by cases d <;> rfl

def setColor : RbTree α → RbTree α
  | nil => nil
  | node _ l a r => node c l a r

@[simp] theorem setColor_mk (d : Side) (c e : Color) (s t : RbTree α) (a : α) :
    (mk d e s a t).setColor c = mk d c s a t := by cases d <;> rfl

theorem setColor_color (t : RbTree α) : t.setColor t.color = t := by cases t <;> rfl

def inorder : RbTree α → List α
  | nil => []
  | node _ l a r => l.inorder ++ a :: r.inorder

@[simp] theorem inorder_nil : (nil : RbTree α).inorder = [] := rfl

@[simp] theorem inorder_node (l r : RbTree α) (a : α) :
    (node c l a r).inorder = l.inorder ++ a :: r.inorder := rfl

@[simp] theorem inorder_setColor (t : RbTree α) :
    (t.setColor c).inorder = t.inorder := by cases t <;> rfl

end

/-- A search tree for `r`. -/
def Ordered (r : α → α → Prop) : RbTree α → Prop
  | nil => True
  | node _ s a t => (∀ x ∈ s.inorder, r x a) ∧ (∀ x ∈ t.inorder, r a x) ∧ s.Ordered r ∧ t.Ordered r

theorem ordered_of_pairwise {r : α → α → Prop} (h : t.inorder.Pairwise r) :
    t.Ordered r := by
  induction t with
  | nil => trivial
  | node c s a t ihs iht =>
    simp only [inorder_node, pairwise_append, pairwise_cons, mem_cons] at h
    exact ⟨fun x hx => h.2.2 x hx a (.inl rfl), h.2.1.1, ihs h.1, iht h.2.1.2⟩

variable {d : Side}

theorem mem_inorder_mk {c : Color} {s t : RbTree α} {a x : α} :
    x ∈ (mk d c s a t).inorder ↔ x ∈ s.inorder ∨ x = a ∨ x ∈ t.inorder := by
  cases d
  · simp [mk]
  · simp only [mk, inorder_node, mem_append, mem_cons]
    tauto

theorem nodup_mk {c : Color} {s t : RbTree α} {a : α} :
    (mk d c s a t).inorder.Nodup ↔
      s.inorder.Nodup ∧ t.inorder.Nodup ∧ a ∉ s.inorder ∧ a ∉ t.inorder ∧
        ∀ x ∈ s.inorder, x ∉ t.inorder := by
  have key (u v : RbTree α) : (u.inorder ++ a :: v.inorder).Nodup ↔
      u.inorder.Nodup ∧ v.inorder.Nodup ∧ a ∉ u.inorder ∧ a ∉ v.inorder ∧
        ∀ x ∈ u.inorder, x ∉ v.inorder := by
    rw [nodup_append]
    simp only [nodup_cons, mem_cons]
    constructor
    · rintro ⟨hu, ⟨hv, hd⟩, h⟩
      exact ⟨hu, hd, fun ha => h a ha a (.inl rfl) rfl, hv, fun x hx hx' => h x hx x (.inr hx') rfl⟩
    · rintro ⟨hu, hd, hau, hv, h⟩
      refine ⟨hu, ⟨hv, hd⟩, ?_⟩
      rintro x hx y (rfl | hy) rfl
      · exact hau hx
      · exact h x hx hy
  cases d
  · exact key s t
  · rw [show (mk .right c s a t).inorder = t.inorder ++ a :: s.inorder from rfl, key t s]
    constructor
    · rintro ⟨h1, h2, h3, h4, h5⟩
      exact ⟨h2, h1, h4, h3, fun x hx hx' => h5 x hx' hx⟩
    · rintro ⟨h1, h2, h3, h4, h5⟩
      exact ⟨h2, h1, h4, h3, fun x hx hx' => h5 x hx' hx⟩

/-- No red node has a red child; every path to an absent child has exactly `n` black nodes. -/
def Balanced : RbTree α → ℕ → Prop
  | nil, n => n = 0
  | node .red l _ r, n => l.color = .black ∧ r.color = .black ∧ l.Balanced n ∧ r.Balanced n
  | node .black l _ r, n => ∃ m, n = m + 1 ∧ l.Balanced m ∧ r.Balanced m

@[simp] theorem balanced_nil : (nil : RbTree α).Balanced n ↔ n = 0 := Iff.rfl

@[simp] theorem balanced_mk_red {s t : RbTree α} {a : α} :
    (mk d .red s a t).Balanced n ↔
      s.color = .black ∧ t.color = .black ∧ s.Balanced n ∧ t.Balanced n := by
  cases d
  · rfl
  · simp only [mk, Balanced]
    tauto

@[simp] theorem balanced_mk_black {s t : RbTree α} {a : α} :
    (mk d .black s a t).Balanced (n + 1) ↔ s.Balanced n ∧ t.Balanced n := by
  cases d
  · simp [mk, Balanced]
  · simp [mk, Balanced, and_comm]

theorem Balanced.setBlack (h : t.Balanced n) :
    ∃ m, (t.setColor .black).Balanced m := by
  match t, h with
  | nil, h => exact ⟨n, h⟩
  | node .red l a r, h => exact ⟨n + 1, n, rfl, h.2.2⟩
  | node .black l a r, h => exact ⟨n, h⟩

theorem Balanced.exists_mk (h : t.Balanced (n + 1)) (d : Side) :
    ∃ c s a u, t = mk d c s a u := by
  cases t with
  | nil => simp at h
  | node c l a r =>
    obtain ⟨s, u, hs⟩ := node_eq_mk c l r a d
    exact ⟨c, s, a, u, hs⟩

theorem Balanced.exists_mk_black (h : t.Balanced (n + 1)) (hc : t.color = .black) (d : Side) :
    ∃ s a u, t = mk d .black s a u ∧ s.Balanced n ∧ u.Balanced n := by
  obtain ⟨c, s, a, u, rfl⟩ := h.exists_mk d
  rw [color_mk] at hc
  subst hc
  exact ⟨s, a, u, rfl, balanced_mk_black.mp h⟩

theorem exists_mk_of_red (h : t.color = .red) (d : Side) :
    ∃ s a u, t = mk d .red s a u := by
  cases t with
  | nil => cases h
  | node c l a r =>
    cases h
    obtain ⟨s, u, hs⟩ := node_eq_mk .red l r a d
    exact ⟨s, a, u, hs⟩

/-- The black nodes on each path to an absent child. -/
def blackCounts : RbTree α → List ℕ
  | nil => [0]
  | node c l _ r =>
    (l.blackCounts ++ r.blackCounts).map fun n => if c = .black then n + 1 else n

def NoRedRed : RbTree α → Prop
  | nil => True
  | node c l _ r =>
    (c = .red → l.color = .black ∧ r.color = .black) ∧ l.NoRedRed ∧ r.NoRedRed

theorem Balanced.noRedRed (h : t.Balanced n) : t.NoRedRed := by
  induction t generalizing n with
  | nil => trivial
  | node c l a r ihl ihr =>
    cases c with
    | red => exact ⟨fun _ => ⟨h.1, h.2.1⟩, ihl h.2.2.1, ihr h.2.2.2⟩
    | black =>
      obtain ⟨m, -, hl, hr⟩ := h
      exact ⟨by simp, ihl hl, ihr hr⟩

theorem Balanced.blackCounts_eq (h : t.Balanced n) :
    ∀ k ∈ t.blackCounts, k = n := by
  induction t generalizing n with
  | nil => simpa [blackCounts] using fun k (hk : k = 0) => hk.trans (balanced_nil.mp h).symm
  | node c l a r ihl ihr =>
    intro k hk
    simp only [blackCounts, mem_map, mem_append] at hk
    obtain ⟨m, hm, rfl⟩ := hk
    cases c with
    | red =>
      rcases hm with hm | hm
      · simpa using ihl h.2.2.1 m hm
      · simpa using ihr h.2.2.2 m hm
    | black =>
      obtain ⟨q, rfl, hl, hr⟩ := h
      rcases hm with hm | hm
      · simpa using ihl hl m hm
      · simpa using ihr hr m hm

end RbTree

/-- One step up: the parent's colour and key, its other child, and the position's side. -/
structure Frame (α : Type*) where
  side : Side
  color : Color
  key : α
  sibling : RbTree α

def Frame.fill (f : Frame α) (t : RbTree α) : RbTree α := .mk f.side f.color t f.key f.sibling

def plug : List (Frame α) → RbTree α → RbTree α
  | [], t => t
  | f :: k, t => plug k (f.fill t)

@[simp] theorem plug_nil (t : RbTree α) : plug [] t = t := rfl

theorem plug_cons (d : Side) (c : Color) (a : α) (s t : RbTree α) (k : List (Frame α)) :
    plug (⟨d, c, a, s⟩ :: k) t = plug k (.mk d c t a s) := rfl

theorem plug_sibling (d : Side) (c : Color) (a : α) (s t : RbTree α) (k : List (Frame α)) :
    plug (⟨d, c, a, s⟩ :: k) t = plug (⟨d.flip, c, a, t⟩ :: k) s := by
  rw [plug_cons, plug_cons, RbTree.mk_flip]

theorem plug_append (k j : List (Frame α)) (t : RbTree α) : plug (k ++ j) t = plug j (plug k t) := by
  induction k generalizing t with
  | nil => rfl
  | cons f k ih => exact ih _

/-- The parent of the position. -/
def parentKey : List (Frame α) → Option α
  | [] => none
  | f :: _ => some f.key

@[simp] theorem parentKey_nil : parentKey ([] : List (Frame α)) = none := rfl

@[simp] theorem parentKey_cons (f : Frame α) (k : List (Frame α)) :
    parentKey (f :: k) = some f.key := rfl

/-- Keys before a position, in order. -/
def before : List (Frame α) → List α
  | [] => []
  | f :: k => before k ++ match f.side with
    | .left => []
    | .right => f.sibling.inorder ++ [f.key]

def after : List (Frame α) → List α
  | [] => []
  | f :: k =>
    (match f.side with
    | .left => f.key :: f.sibling.inorder
    | .right => []) ++ after k

section
variable (k : List (Frame α))

theorem inorder_plug (t : RbTree α) :
    (plug k t).inorder = before k ++ t.inorder ++ after k := by
  induction k generalizing t with
  | nil => simp [before, after]
  | cons f k ih =>
    obtain ⟨d, c, a, s⟩ := f
    rw [plug_cons, ih]
    cases d <;> simp [before, after, RbTree.mk]

theorem inorder_plug_congr {s t : RbTree α} (h : s.inorder = t.inorder) :
    (plug k s).inorder = (plug k t).inorder := by
  rw [inorder_plug, inorder_plug, h]

def frameKeys : List α := before k ++ after k

end

variable {k : List (Frame α)}

theorem mem_frameKeys_cons {f : Frame α} {x : α} :
    x ∈ frameKeys (f :: k) ↔ x = f.key ∨ x ∈ f.sibling.inorder ∨ x ∈ frameKeys k := by
  simp only [frameKeys, before, after]
  cases f.side <;> simp <;> tauto

theorem nodup_plug {t : RbTree α} :
    (plug k t).inorder.Nodup ↔
      t.inorder.Nodup ∧ (frameKeys k).Nodup ∧ ∀ x ∈ t.inorder, x ∉ frameKeys k := by
  rw [inorder_plug]
  have hp : (before k ++ t.inorder ++ after k).Perm (t.inorder ++ (before k ++ after k)) := by
    rw [append_assoc]
    refine List.perm_append_comm.trans ?_
    rw [append_assoc]
    exact List.Perm.append_left _ perm_append_comm
  rw [hp.nodup_iff, nodup_append]
  refine and_congr_right fun _ => and_congr_right fun _ => ?_
  constructor
  · intro h x hx hx'
    exact h x hx x hx' rfl
  · rintro h x hx y hy rfl
    exact h x hx hy

theorem mem_inorder_plug {t : RbTree α} {x : α} :
    x ∈ (plug k t).inorder ↔ x ∈ t.inorder ∨ x ∈ frameKeys k := by
  rw [inorder_plug, frameKeys]
  simp only [mem_append]
  tauto

theorem length_le_inorder_plug (k : List (Frame α)) (t : RbTree α) :
    k.length + t.inorder.length ≤ (plug k t).inorder.length := by
  induction k generalizing t with
  | nil => simp
  | cons f k ih =>
    obtain ⟨d, c, a, s⟩ := f
    have hlen := ih (.mk d c t a s)
    rw [plug_cons, length_cons]
    cases d <;> simp [RbTree.mk] at hlen ⊢ <;> omega

/-- A tree of root colour `c` and black height `n` in the hole: balanced with a black root. -/
def Fits : List (Frame α) → Color → ℕ → Prop
  | [], c, _ => c = .black
  | f :: k, c, n =>
    f.sibling.Balanced n ∧ match f.color with
    | .red => c = .black ∧ f.sibling.color = .black ∧ Fits k .red n
    | .black => Fits k .black (n + 1)

variable {n : ℕ}

@[simp] theorem fits_nil {c : Color} : Fits ([] : List (Frame α)) c n ↔ c = .black :=
  Iff.rfl

@[simp] theorem fits_red {d : Side} {a : α} {s : RbTree α} {c : Color}
    : Fits (⟨d, .red, a, s⟩ :: k) c n ↔
      s.Balanced n ∧ c = .black ∧ s.color = .black ∧ Fits k .red n := Iff.rfl

@[simp] theorem fits_black {d : Side} {a : α} {s : RbTree α} {c : Color}
    : Fits (⟨d, .black, a, s⟩ :: k) c n ↔ s.Balanced n ∧ Fits k .black (n + 1) := Iff.rfl

theorem Fits.plug {t : RbTree α} (hk : Fits k t.color n)
    (ht : t.Balanced n) : (plug k t).color = .black ∧ ∃ m, (plug k t).Balanced m := by
  induction k generalizing t n with
  | nil => exact ⟨hk, n, ht⟩
  | cons f k ih =>
    obtain ⟨d, c, a, s⟩ := f
    cases c with
    | red =>
      obtain ⟨hs, hc, hsc, hk⟩ := fits_red.mp hk
      exact ih (t := .mk d .red t a s) (by simpa using hk) (by simp [*])
    | black =>
      obtain ⟨hs, hk⟩ := fits_black.mp hk
      exact ih (t := .mk d .black t a s) (by simpa using hk) (by simp [*])

theorem Fits.black {c : Color} (hk : Fits k c n) :
    Fits k .black n := by
  cases c with
  | black => exact hk
  | red =>
    match k, hk with
    | [], _ => rfl
    | ⟨_, .red, _, _⟩ :: _, hk => cases (fits_red.mp hk).2.1
    | ⟨_, .black, _, _⟩ :: _, hk => exact hk

theorem fits_of_plug {t : RbTree α} (hc : (plug k t).color = .black)
    {m : ℕ} (hb : (plug k t).Balanced m) : ∃ n, t.Balanced n ∧ Fits k t.color n := by
  induction k generalizing t m with
  | nil => exact ⟨m, hb, hc⟩
  | cons f k ih =>
    obtain ⟨d, c, a, s⟩ := f
    obtain ⟨n, hn, hk⟩ := ih (t := .mk d c t a s) hc hb
    rw [RbTree.color_mk] at hk
    cases c with
    | red =>
      obtain ⟨htc, hsc, ht, hs⟩ := RbTree.balanced_mk_red.mp hn
      exact ⟨n, ht, by simp [*]⟩
    | black =>
      cases n with
      | zero => cases d <;> simp [RbTree.mk, RbTree.Balanced] at hn
      | succ n =>
        obtain ⟨ht, hs⟩ := RbTree.balanced_mk_black.mp hn
        exact ⟨n, ht, by simp [*]⟩

theorem exists_plug_of_mem {t : RbTree α} {a : α} (h : a ∈ t.inorder) :
    ∃ k c l r, t = plug k (.node c l a r) := by
  induction t with
  | nil => simp at h
  | node c l b r ihl ihr =>
    simp only [RbTree.inorder_node, mem_append, mem_cons] at h
    rcases h with h | rfl | h
    · obtain ⟨k, e, s, u, rfl⟩ := ihl h
      exact ⟨k ++ [⟨.left, c, b, r⟩], e, s, u, by simp [plug_append, plug_cons, RbTree.mk]⟩
    · exact ⟨[], c, l, r, rfl⟩
    · obtain ⟨k, e, s, u, rfl⟩ := ihr h
      exact ⟨k ++ [⟨.right, c, b, l⟩], e, s, u, by simp [plug_append, plug_cons, RbTree.mk]⟩

end RedBlack
