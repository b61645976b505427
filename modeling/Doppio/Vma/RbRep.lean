import Doppio.Vma.RbTree

/-! What it means for the pointer tree to hold a given tree, and how the primitive writes and
the rotations of `kernel/mm/vma.c` act on it. -/
namespace Doppio
open RedBlack List
namespace RbHeap

/-- Every node carries the links of its position. -/
def Holds (h : RbHeap) : Option Ptr → RbTree Ptr → Prop
  | _, .nil => True
  | p, .node c l a r =>
    h.links a = ⟨p, l.top, r.top, c⟩ ∧ h.Holds (some a) l ∧ h.Holds (some a) r

/-- The frames around a position carry their links; `t` is the pointer in the hole. -/
def HoldsAround (h : RbHeap) : List (Frame Ptr) → Option Ptr → Prop
  | [], t => h.root = t
  | f :: k, t =>
    h.links f.key = .mk' f.side (parentKey k) t f.sibling.top f.color ∧
      h.Holds (some f.key) f.sibling ∧ h.HoldsAround k (some f.key)

/-- The root pointer and the links are those of the tree, with parent pointers, and no node occurs
twice. -/
structure Rep (h : RbHeap) (t : RbTree Ptr) : Prop where
  root : h.root = t.top
  holds : h.Holds none t
  nodup : t.inorder.Nodup

variable {h : RbHeap} {d : Side} {k : List (Frame Ptr)} {t : RbTree Ptr} {p : Option Ptr}

variable {c : Color} {a : Ptr}

theorem holds_mk {s t : RbTree Ptr} :
    h.Holds p (.mk d c s a t) ↔
      h.links a = .mk' d p s.top t.top c ∧ h.Holds (some a) s ∧ h.Holds (some a) t := by
  cases d
  · rfl
  · simp only [RbTree.mk, Holds]
    tauto

theorem holdsAround_cons {s : RbTree Ptr} {t : Option Ptr} :
    h.HoldsAround (⟨d, c, a, s⟩ :: k) t ↔
      h.links a = .mk' d (parentKey k) t s.top c ∧ h.Holds (some a) s ∧
        h.HoldsAround k (some a) := Iff.rfl

theorem holds_plug :
    (h.root = (plug k t).top ∧ h.Holds none (plug k t)) ↔
      h.HoldsAround k t.top ∧ h.Holds (parentKey k) t := by
  induction k generalizing t with
  | nil => rfl
  | cons f k ih =>
    rw [plug_cons, ih, holds_mk, RbTree.top_mk, holdsAround_cons]
    tauto

theorem rep_plug :
    h.Rep (plug k t) ↔
      h.HoldsAround k t.top ∧ h.Holds (parentKey k) t ∧ (plug k t).inorder.Nodup := by
  constructor
  · intro hr
    obtain ⟨hk, ht⟩ := holds_plug.mp ⟨hr.root, hr.holds⟩
    exact ⟨hk, ht, hr.nodup⟩
  · rintro ⟨hk, ht, hn⟩
    obtain ⟨hroot, hh⟩ := holds_plug.mpr ⟨hk, ht⟩
    exact ⟨hroot, hh, hn⟩

/-! Writes to nodes that do not occur leave a position alone. -/

theorem Holds.congr {h h' : RbHeap} (ht : h.Holds p t)
    (he : ∀ a ∈ t.inorder, h'.links a = h.links a) : h'.Holds p t := by
  induction t generalizing p with
  | nil => trivial
  | node c l a r ihl ihr =>
    obtain ⟨ha, hl, hr⟩ := ht
    refine ⟨by rw [he a (by simp), ha], ihl hl ?_, ihr hr ?_⟩
    · exact fun b hb => he b (by simp [hb])
    · exact fun b hb => he b (by simp [hb])

theorem HoldsAround.congr {h h' : RbHeap} {t : Option Ptr}
    (hk : h.HoldsAround k t) (hroot : h'.root = h.root)
    (he : ∀ a ∈ frameKeys k, h'.links a = h.links a) : h'.HoldsAround k t := by
  induction k generalizing t with
  | nil => exact hroot.trans hk
  | cons f k ih =>
    obtain ⟨hf, hs, hk⟩ := hk
    refine ⟨?_, hs.congr ?_, ih hk ?_⟩
    · rw [he _ (mem_frameKeys_cons.mpr (.inl rfl)), hf]
    · exact fun a ha => he a (mem_frameKeys_cons.mpr (.inr (.inl ha)))
    · exact fun a ha => he a (mem_frameKeys_cons.mpr (.inr (.inr ha)))

theorem Holds.reparent {h h' : RbHeap} {q : Option Ptr} (ht : h.Holds p t) (hn : t.inorder.Nodup)
    (htop : ∀ a, t.top = some a → h'.links a = (h.links a).setParent q)
    (he : ∀ a ∈ t.inorder, t.top ≠ some a → h'.links a = h.links a) : h'.Holds q t := by
  cases t with
  | nil => trivial
  | node c l a r =>
    obtain ⟨ha, hl, hr⟩ := ht
    simp only [RbTree.inorder_node, nodup_append, nodup_cons, mem_cons] at hn
    refine ⟨by rw [htop a rfl, ha]; rfl, hl.congr ?_, hr.congr ?_⟩
    · intro b hb
      refine he b (by simp [hb]) ?_
      simpa using fun hab : a = b => hn.2.2 b hb a (.inl rfl) hab.symm
    · intro b hb
      refine he b (by simp [hb]) ?_
      simpa using fun hab : a = b => hn.2.1.1 (hab ▸ hb)

section
variable (h : RbHeap)

@[simp] theorem setChild_links (d : Side) (a b : Ptr) (v : Option Ptr) :
    (h.setChild d a v).links b = if b = a then (h.links a).setChild d v else h.links b := by
  simp [setChild]

@[simp] theorem setChild_root (d : Side) (a : Ptr) (v : Option Ptr) :
    (h.setChild d a v).root = h.root := rfl

@[simp] theorem rbSetColor_root (v : Option Ptr) (c : Color) :
    (h.rbSetColor v c).root = h.root := by cases v <;> rfl

@[simp] theorem rbSetParent_root (v p : Option Ptr) :
    (h.rbSetParent v p).root = h.root := by cases v <;> rfl

theorem rbSetColor_links (v : Option Ptr) (c : Color) (b : Ptr) :
    (h.rbSetColor v c).links b = if v = some b then (h.links b).setColor c else h.links b := by
  cases v with
  | none => simp [rbSetColor]
  | some v =>
    by_cases hb : b = v
    · simp [rbSetColor, hb]
    · simp [rbSetColor, hb, Ne.symm hb]

theorem rbSetParent_links (v p : Option Ptr) (b : Ptr) :
    (h.rbSetParent v p).links b = if v = some b then (h.links b).setParent p else h.links b := by
  cases v with
  | none => simp [rbSetParent]
  | some v =>
    by_cases hb : b = v
    · simp [rbSetParent, hb]
    · simp [rbSetParent, hb, Ne.symm hb]

end

theorem HoldsAround.relink {x : Ptr} {y : Option Ptr}
    (d : Side) (hk : h.HoldsAround k (some x)) (hn : (frameKeys k).Nodup) (hx : x ∉ frameKeys k) :
    (h.relink d (parentKey k) x y).HoldsAround k y ∧
      ∀ a ∉ frameKeys k, (h.relink d (parentKey k) x y).links a = h.links a := by
  cases k with
  | nil => exact ⟨rfl, fun _ _ => rfl⟩
  | cons f k =>
    obtain ⟨e, c, b, s⟩ := f
    obtain ⟨hb, hs, hk⟩ := holdsAround_cons.mp hk
    have hxs : s.top ≠ some x := by
      intro htop
      apply hx
      rw [mem_frameKeys_cons]
      cases s with
      | nil => simp at htop
      | node => simp_all
    have hbn : b ∉ s.inorder ∧ b ∉ frameKeys k := by
      have hp : (plug k (.mk e c .nil b s)).inorder.Nodup := by
        have := hn
        rw [show frameKeys (⟨e, c, b, s⟩ :: k) = before (⟨e, c, b, s⟩ :: k) ++ [] ++
          after (⟨e, c, b, s⟩ :: k) by simp [frameKeys]] at this
        rwa [show plug k (.mk e c .nil b s) = plug (⟨e, c, b, s⟩ :: k) .nil from rfl, inorder_plug]
      obtain ⟨hm, -, hd⟩ := nodup_plug.mp hp
      exact ⟨(RbTree.nodup_mk.mp hm).2.2.2.1, hd b (RbTree.mem_inorder_mk.mpr (.inr (.inl rfl)))⟩
    -- whichever side the source tests first, the write goes to the side of the hole
    have hrel : h.relink d (some b) x y = h.setChild e b y := by
      rcases Side.eq_or_eq_flip d e with rfl | rfl
      · simp [RbHeap.relink, hb]
      · simp only [RbHeap.relink, hb]
        rw [RbLinks.mk'_flip, RbLinks.mk'_child, if_neg hxs]
    rw [parentKey_cons, hrel]
    refine ⟨holdsAround_cons.mpr ⟨?_, hs.congr ?_, hk.congr rfl ?_⟩, ?_⟩
    · simp [hb]
    · intro a ha
      simp [show a ≠ b from fun hab => hbn.1 (hab ▸ ha)]
    · intro a ha
      simp [show a ≠ b from fun hab => hbn.2 (hab ▸ ha)]
    · intro a ha
      rw [mem_frameKeys_cons, not_or] at ha
      simp [ha.1]

theorem Rep.setColor (hr : h.Rep (plug k t))
    (c : Color) : (h.rbSetColor t.top c).Rep (plug k (t.setColor c)) := by
  cases t with
  | nil => exact hr
  | node e l a r =>
    obtain ⟨hk, ⟨ha, hl, hr⟩, hn⟩ := rep_plug.mp hr
    obtain ⟨ht, -, hd⟩ := nodup_plug.mp hn
    simp only [RbTree.inorder_node, nodup_append, nodup_cons, mem_cons] at ht
    refine rep_plug.mpr ⟨hk.congr (by simp) ?_, ⟨?_, hl.congr ?_, hr.congr ?_⟩, ?_⟩
    · intro b hb
      have hab : a ≠ b := fun hab => hd a (by simp) (hab ▸ hb)
      simp [rbSetColor_links, hab]
    · simp [rbSetColor_links, ha, RbLinks.setColor]
    · intro b hb
      have hab : a ≠ b := fun hab => ht.2.2 b hb a (.inl rfl) hab.symm
      simp [rbSetColor_links, hab]
    · intro b hb
      have hab : a ≠ b := fun hab => ht.2.1.1 (hab ▸ hb)
      simp [rbSetColor_links, hab]
    · rw [inorder_plug_congr k (t := .node e l a r) (by simp)]
      exact hn

/-! Reading a represented tree. -/

theorem Rep.links_top {s t : RbTree Ptr} (hr : h.Rep (plug k (.mk d c s a t))) :
    h.links a = .mk' d (parentKey k) s.top t.top c :=
  (holds_mk.mp (rep_plug.mp hr).2.1).1

theorem Rep.links_frame {s t : RbTree Ptr} (hr : h.Rep (plug (⟨d, c, a, s⟩ :: k) t)) :
    h.links a = .mk' d (parentKey k) t.top s.top c := Rep.links_top (k := k) hr

theorem Rep.rbColor_top (hr : h.Rep (plug k t)) : h.rbColor t.top = t.color := by
  cases t with
  | nil => rfl
  | node c l a r => simp [rbColor, Rep.links_top (d := .left) hr]

theorem Rep.rbParent_top
    (hr : h.Rep (plug k t)) (ha : t.top = some a) : h.rbParent (some a) = parentKey k := by
  cases t with
  | nil => cases ha
  | node c l b r =>
    cases ha
    simp [rbParent, Rep.links_top (d := .left) hr]

theorem Rep.frame_ne {s t : RbTree Ptr} {b : Ptr} (hr : h.Rep (plug (⟨d, c, a, s⟩ :: k) t))
    (hb : t.top = some b) : s.top ≠ some b := by
  intro hs
  have hn := (nodup_plug.mp hr.nodup).2.2 b
  have mem {u : RbTree Ptr} (hu : u.top = some b) : b ∈ u.inorder := by
    cases u with
    | nil => cases hu
    | node => simp_all
  exact hn (mem hb) (mem_frameKeys_cons.mpr (.inr (.inl (mem hs))))

theorem mem_inorder_of_top (h : t.top = some a) : a ∈ t.inorder := by
  cases t with
  | nil => simp at h
  | node => simp_all

/-- A rotation at `x` lifts its child `y` on the far side and keeps the order. -/
theorem Rep.rotate {e : Color}
    {A B C : RbTree Ptr} {x y : Ptr} (hr : h.Rep (plug k (.mk d c A x (.mk d e B y C)))) :
    ∃ h', rbRotate d h x = some h' ∧ h'.Rep (plug k (.mk d e (.mk d c A x B) y C)) := by
  obtain ⟨hk, ht, hn⟩ := rep_plug.mp hr
  rw [RbTree.top_mk] at hk
  obtain ⟨hx, hA, hy⟩ := holds_mk.mp ht
  obtain ⟨hy, hB, hC⟩ := holds_mk.mp hy
  obtain ⟨ht, hkn, hd⟩ := nodup_plug.mp hn
  obtain ⟨nA, nyt, hxA, hxy, dA⟩ := RbTree.nodup_mk.mp ht
  obtain ⟨nB, nC, hyB, hyC, dB⟩ := RbTree.nodup_mk.mp nyt
  simp only [RbTree.mem_inorder_mk, not_or] at hxy dA hd
  have hxk : x ∉ frameKeys k := hd x (.inr (.inl rfl))
  have hyk : y ∉ frameKeys k := hd y (.inr (.inr (.inr (.inl rfl))))
  have hBk : ∀ b, B.top = some b → b ∉ frameKeys k :=
    fun b hb => hd b (.inr (.inr (.inl (mem_inorder_of_top hb))))
  have hBx : B.top ≠ some x := fun hb => hxy.1 (mem_inorder_of_top hb)
  have hBy : B.top ≠ some y := fun hb => hyB (mem_inorder_of_top hb)
  have hxy' : x ≠ y := hxy.2.1
  -- the heap before the parent of `x` is re-pointed
  let h₁ := ((h.setChild d.flip x B.top).rbSetParent B.top (some x)).setChild d y (some x)
  have hk1 : h₁.HoldsAround k (some x) := by
    refine hk.congr (by simp [h₁]) fun a ha => ?_
    have h1 : a ≠ x := fun he => hxk (he ▸ ha)
    have h2 : a ≠ y := fun he => hyk (he ▸ ha)
    have h3 : B.top ≠ some a := fun he => hBk a he ha
    simp [h₁, rbSetParent_links, h1, h2, h3]
  have hp1 : h₁.rbParent (some x) = parentKey k := by
    simp [h₁, rbParent, rbSetParent_links, hxy', hBx, hx]
  obtain ⟨hk2, he2⟩ := hk1.relink d hkn hxk (y := some y)
  set h₂ := h₁.relink d (parentKey k) x (some y) with hh2
  have hrot : rbRotate d h x =
      some ((h₂.rbSetParent (some y) (parentKey k)).rbSetParent (some x) (some y)) := by
    have h1 : (h.links x).child d.flip = some y := by rw [hx]; simp
    have h2 : (h.links y).child d = B.top := by rw [hy]; simp
    simp only [rbRotate, h1, h2, Option.bind_eq_bind, Option.bind_some]
    rw [hp1]
    rfl
  have hlinks : ∀ a ∉ frameKeys k,
      ((h₂.rbSetParent (some y) (parentKey k)).rbSetParent (some x) (some y)).links a =
        if a = x then .mk' d (some y) A.top B.top c
        else if a = y then .mk' d (parentKey k) (some x) C.top e
        else if B.top = some a then (h.links a).setParent (some x)
        else h.links a := by
    intro a ha
    by_cases h1 : a = x
    · subst h1
      simp [rbSetParent_links, he2 a ha, h₁, hxy', hBx, hx]
    · by_cases h2 : a = y
      · subst h2
        simp [rbSetParent_links, he2 a ha, h₁, h1, Ne.symm h1, hy]
      · simp [rbSetParent_links, he2 a ha, h₁, h1, h2, Ne.symm h1, Ne.symm h2]
  refine ⟨_, hrot, rep_plug.mpr ⟨?_, holds_mk.mpr ⟨?_, holds_mk.mpr ⟨?_, ?_, ?_⟩, ?_⟩, ?_⟩⟩
  · rw [RbTree.top_mk]
    refine hk2.congr (by simp) fun a ha => ?_
    have h1 : x ≠ a := fun he => hxk (he ▸ ha)
    have h2 : y ≠ a := fun he => hyk (he ▸ ha)
    simp [rbSetParent_links, h1, h2]
  · rw [hlinks y hyk, if_neg (Ne.symm hxy'), if_pos rfl, RbTree.top_mk]
  · rw [hlinks x hxk, if_pos rfl]
  · refine hA.congr fun a ha => ?_
    have h1 : a ≠ x := fun he => hxA (he ▸ ha)
    have h2 : a ≠ y := fun he => (dA a ha).2.1 he
    have h3 : B.top ≠ some a := fun he => (dA a ha).1 (mem_inorder_of_top he)
    rw [hlinks a (hd a (.inl ha)), if_neg h1, if_neg h2, if_neg h3]
  · have hB' : ∀ a ∈ B.inorder, a ∉ frameKeys k ∧ a ≠ x ∧ a ≠ y := fun a ha =>
      ⟨hd a (.inr (.inr (.inl ha))), fun he => hxy.1 (he ▸ ha), fun he => hyB (he ▸ ha)⟩
    refine hB.reparent nB (fun a ha => ?_) fun a ha hna => ?_
    · obtain ⟨h0, h1, h2⟩ := hB' a (mem_inorder_of_top ha)
      rw [hlinks a h0, if_neg h1, if_neg h2, if_pos ha]
    · obtain ⟨h0, h1, h2⟩ := hB' a ha
      rw [hlinks a h0, if_neg h1, if_neg h2, if_neg hna]
  · refine hC.congr fun a ha => ?_
    have h1 : a ≠ x := fun he => hxy.2.2 (he ▸ ha)
    have h2 : a ≠ y := fun he => hyC (he ▸ ha)
    have h3 : B.top ≠ some a := fun he => dB a (mem_inorder_of_top he) ha
    rw [hlinks a (hd a (.inr (.inr (.inr (.inr ha))))), if_neg h1, if_neg h2, if_neg h3]
  · refine (congrArg Nodup ?_).mp hn
    apply inorder_plug_congr
    cases d <;> simp [RbTree.mk]

theorem Rep.rotate_flip {e : Color}
    {A B C : RbTree Ptr} {x y : Ptr} (hr : h.Rep (plug k (.mk d c (.mk d e C y B) x A))) :
    ∃ h', rbRotate d.flip h x = some h' ∧ h'.Rep (plug k (.mk d e C y (.mk d c B x A))) := by
  rw [← RbTree.mk_flip d c, ← RbTree.mk_flip d e] at hr
  obtain ⟨h', he, hr'⟩ := hr.rotate
  rw [RbTree.mk_flip, RbTree.mk_flip] at hr'
  exact ⟨h', he, hr'⟩

end RbHeap
end Doppio
