import Doppio.Vma.RbRep

/-! `rb_erase_fixup` and `rb_erase_node`: a removed black node leaves a position one black node
short, and the fixup pushes that up until it can be absorbed. -/
namespace Doppio
open RedBlack List Option
namespace RbHeap

variable {h : RbHeap} {k : List (Frame Ptr)} {d : Side} {c : Color} {n : ℕ} {t : RbTree Ptr}

variable {a : Ptr}

theorem Rep.rbColor_sibling {s t : RbTree Ptr}
    (hr : h.Rep (plug (⟨d, c, a, s⟩ :: k) t)) : h.rbColor s.top = s.color := by
  rw [plug_sibling] at hr
  exact hr.rbColor_top

theorem eraseRedSibling_spec {t W : RbTree Ptr} {xp : Ptr}
    (hr : h.Rep (plug (⟨d, c, xp, W⟩ :: k) t)) (hk : Fits (⟨d, c, xp, W⟩ :: k) .black (n + 1)) :
    ∃ h' k' e W', rbEraseRedSibling d h xp = some h' ∧ h'.Rep (plug (⟨d, e, xp, W'⟩ :: k') t) ∧
      (plug (⟨d, e, xp, W'⟩ :: k') t).inorder = (plug (⟨d, c, xp, W⟩ :: k) t).inorder ∧
      Fits (⟨d, e, xp, W'⟩ :: k') .black (n + 1) ∧ W'.color = .black ∧ (e = .black → k' = k) := by
  have hl := hr.links_frame
  have hc := hr.rbColor_sibling
  cases hW : W.color with
  | black =>
    refine ⟨h, k, c, W, ?_, hr, rfl, hk, hW, fun _ => rfl⟩
    simp [rbEraseRedSibling, hl, hc, hW]
  | red =>
    obtain ⟨wn, w, wf, rfl⟩ := RbTree.exists_mk_of_red hW d
    have hcb : c = .black := by
      cases c with
      | black => rfl
      | red => simp at hk
    subst hcb
    obtain ⟨hWb, hk⟩ := fits_black.mp hk
    obtain ⟨hnc, -, hn, hf⟩ := RbTree.balanced_mk_red.mp hWb
    have h1 := hr
    rw [plug_sibling] at h1
    have h2 := h1.setColor .black
    rw [RbTree.top_mk, RbTree.setColor_mk, plug_cons, RbTree.mk_flip] at h2
    have h3 := h2.setColor .red
    rw [RbTree.top_mk, RbTree.setColor_mk] at h3
    obtain ⟨h', he, h4⟩ := h3.rotate
    refine ⟨h', ⟨d, .black, w, wf⟩ :: k, .red, wn, ?_, h4, ?_, ?_, hnc, by simp⟩
    · rw [RbTree.top_mk] at hc
      simp [rbEraseRedSibling, hl, hc, he]
    · rw [plug_cons, plug_cons, plug_cons]
      apply inorder_plug_congr
      cases d <;> simp [RbTree.mk]
    · simp [*]

variable {e : Color}

theorem eraseTurnSibling_spec {t wn wf : RbTree Ptr} {xp w : Ptr}
    (hr : h.Rep (plug (⟨d, e, xp, .mk d .black wn w wf⟩ :: k) t)) (hn : wn.Balanced n)
    (hf : wf.Balanced n) (hred : ¬(wn.color = .black ∧ wf.color = .black)) :
    ∃ h' v vn vf, rbEraseTurnSibling d h w = some h' ∧
      h'.Rep (plug (⟨d, e, xp, .mk d .black vn v vf⟩ :: k) t) ∧
      (RbTree.mk d .black vn v vf).inorder = (RbTree.mk d .black wn w wf).inorder ∧
      vn.Balanced n ∧ vf.Balanced n ∧ vf.color = .red := by
  have h1 := hr
  rw [plug_sibling] at h1
  have hl := h1.links_top
  have hcf : h.rbColor wf.top = wf.color := Rep.rbColor_sibling (k := _ :: k) h1
  cases hfc : wf.color with
  | red =>
    refine ⟨h, w, wn, wf, ?_, hr, rfl, hn, hf, hfc⟩
    simp [rbEraseTurnSibling, hl, hcf, hfc]
  | black =>
    have hnr : wn.color = .red := by
      cases hnc : wn.color with
      | red => rfl
      | black => exact absurd ⟨hnc, hfc⟩ hred
    obtain ⟨an, a, af, rfl⟩ := RbTree.exists_mk_of_red hnr d
    obtain ⟨-, hafc, han, haf⟩ := RbTree.balanced_mk_red.mp hn
    have h2 := Rep.setColor (k := ⟨d, .black, w, wf⟩ :: _ :: k) (t := .mk d .red an a af) h1 .black
    rw [RbTree.top_mk, RbTree.setColor_mk, plug_cons] at h2
    have h3 := h2.setColor .red
    rw [RbTree.top_mk, RbTree.setColor_mk] at h3
    obtain ⟨h', he, h4⟩ := h3.rotate_flip
    rw [← plug_sibling] at h4
    refine ⟨h', a, an, .mk d .red af w wf, ?_, h4, ?_, han, ?_, by simp⟩
    · simp [rbEraseTurnSibling, hl, hcf, hfc, he]
    · cases d <;> simp [RbTree.mk]
    · exact RbTree.balanced_mk_red.mpr ⟨hafc, hfc, haf, hf⟩

/-- The last four writes of a branch and its rotation absorb the missing black node. -/
theorem eraseAbsorb_spec {t wn wf : RbTree Ptr} {xp w : Ptr}
    (hr : h.Rep (plug (⟨d, e, xp, .mk d .black wn w wf⟩ :: k) t))
    (hk : Fits (⟨d, e, xp, .mk d .black wn w wf⟩ :: k) .black (n + 1)) (ht : t.Balanced n)
    (hfc : wf.color = .red) :
    ∃ h', rbRotate d (((h.rbSetColor (some w) e).rbSetColor (some xp) .black).rbSetColor
        wf.top .black) xp = some h' ∧
      ∃ u, h'.Rep u ∧ u.inorder = (plug (⟨d, e, xp, .mk d .black wn w wf⟩ :: k) t).inorder ∧
        u.color = .black ∧ ∃ m, u.Balanced m := by
  have h1 := hr
  rw [plug_sibling] at h1
  have h2 := h1.setColor e
  rw [RbTree.top_mk, RbTree.setColor_mk, plug_cons, RbTree.mk_flip] at h2
  have h3 := h2.setColor .black
  rw [RbTree.top_mk, RbTree.setColor_mk, ← plug_cons, plug_sibling, ← RbTree.mk_flip,
    ← plug_cons] at h3
  have h4 := h3.setColor .black
  rw [plug_cons, RbTree.mk_flip, ← plug_sibling] at h4
  obtain ⟨h', he, h5⟩ := h4.rotate
  obtain ⟨fn, f, ff, rfl⟩ := RbTree.exists_mk_of_red hfc d
  refine ⟨h', he, _, h5, ?_, ?_⟩
  · rw [plug_cons]
    apply inorder_plug_congr
    cases d <;> simp [RbTree.mk]
  · obtain ⟨hw, hk⟩ : (RbTree.mk d .black wn w (.mk d .red fn f ff)).Balanced (n + 1) ∧
        ∃ m, Fits k e m ∧ m = n + 1 + (if e = .black then 1 else 0) := by
      cases e with
      | red =>
        obtain ⟨hw, -, -, hk⟩ := fits_red.mp hk
        exact ⟨hw, _, hk, rfl⟩
      | black =>
        obtain ⟨hw, hk⟩ := fits_black.mp hk
        exact ⟨hw, _, hk, rfl⟩
    obtain ⟨hn, hf⟩ := RbTree.balanced_mk_black.mp hw
    obtain ⟨-, -, hfn, hff⟩ := RbTree.balanced_mk_red.mp hf
    apply Fits.plug (n := n + 1 + (if e = .black then 1 else 0))
    · simpa using hk
    · cases e <;> simp [*]

/-- The flag says on which side of the parent the position hangs. -/
def SideFlag (k : List (Frame Ptr)) (l : Bool) : Prop :=
  ∀ f ∈ k.head?, (if l then Side.left else Side.right) = f.side

/-- The nodes of `xs` in order; balanced once `x` is black. -/
def FixedAt (h : RbHeap) (x : Option Ptr) (xs : List Ptr) : Prop :=
  ∃ k t, h.Rep (plug k t) ∧ x = t.top ∧ (plug k t).inorder = xs ∧
    (plug k (t.setColor .black)).color = .black ∧ ∃ m, (plug k (t.setColor .black)).Balanced m

variable {l : Bool}

theorem sideFlag_of_rep (hr : h.Rep (plug k t))
    (ha : t.top = some a) : SideFlag k (h.isLeftOf a (parentKey k) l) := by
  intro f hf
  match k, hf with
  | ⟨d, c, b, s⟩ :: k, hf =>
    cases hf
    have hne := hr.frame_ne ha
    have hl := hr.links_frame
    cases d <;> simp [isLeftOf, hl, RbLinks.mk', ha, hne]

/-- One turn finishes, or moves the position to the parent: a red one ends the loop, a black one is
a black node short in turn. -/
theorem eraseFixupStep_spec {t W : RbTree Ptr} {xp : Ptr}
    (hr : h.Rep (plug (⟨d, c, xp, W⟩ :: k) t)) (hk : Fits (⟨d, c, xp, W⟩ :: k) .black (n + 1))
    (ht : t.Balanced n) :
    ∃ h', (rbEraseFixupStep d h xp l = some (h', .inr h'.root) ∧
        h'.FixedAt h'.root (plug (⟨d, c, xp, W⟩ :: k) t).inorder) ∨
      ∃ k' e V l', rbEraseFixupStep d h xp l = some (h', .inl (some xp, parentKey k', l')) ∧
        SideFlag k' l' ∧ h'.Rep (plug k' (.mk d e t xp V)) ∧
        (plug k' (.mk d e t xp V)).inorder = (plug (⟨d, c, xp, W⟩ :: k) t).inorder ∧
        (RbTree.mk d .black t xp V).Balanced (n + 1) ∧
        (e = .red ∧ Fits k' .black (n + 1) ∨ e = .black ∧ k' = k ∧ Fits k' .black (n + 2)) := by
  obtain ⟨h1, k1, e, W1, he1, hr1, hin1, hk1, hc1, hsame⟩ := eraseRedSibling_spec hr hk
  have hW1 : W1.Balanced (n + 1) := hk1.1
  obtain ⟨wn, w, wf, rfl, hn, hf⟩ := hW1.exists_mk_black hc1 d
  have hxl := hr1.links_frame
  have hs1 := hr1
  rw [plug_sibling] at hs1
  have hwl := hs1.links_top
  have hcf : h1.rbColor wf.top = wf.color := Rep.rbColor_sibling (k := _ :: k1) hs1
  have hcn : h1.rbColor wn.top = wn.color :=
    Rep.rbColor_top (k := ⟨d, .black, w, wf⟩ :: _ :: k1) hs1
  by_cases hbb : wn.color = .black ∧ wf.color = .black
  · have h2 := hs1.setColor .red
    rw [RbTree.top_mk, plug_cons, RbTree.mk_flip] at h2
    have hp : (h1.rbSetColor (some w) .red).rbParent (some xp) = parentKey k1 :=
      h2.rbParent_top (by simp)
    have hflag := sideFlag_of_rep (l := l) h2 (RbTree.top_mk ..)
    refine ⟨_, .inr ⟨k1, e, _, _, ?_, hflag, h2, ?_, ?_, ?_⟩⟩
    · simp [rbEraseFixupStep, he1, hxl, hwl, hcn, hcf, hbb, hp]
    · rw [← hin1, plug_cons]
      apply inorder_plug_congr
      cases d <;> simp [RbTree.mk]
    · simp [*]
    · cases e with
      | red => exact .inl ⟨rfl, (fits_red.mp hk1).2.2.2.black⟩
      | black => exact .inr ⟨rfl, hsame rfl, (fits_black.mp hk1).2⟩
  · obtain ⟨h₂, v, vn, vf, he2, hr2, hin2, hvn, hvf, hvc⟩ := eraseTurnSibling_spec hr1 hn hf hbb
    have hk2 : Fits (⟨d, e, xp, .mk d .black vn v vf⟩ :: k1) .black (n + 1) := by
      cases e <;> simp_all
    obtain ⟨h3, he3, u, hu, hin3, huc, m, hm⟩ := eraseAbsorb_spec hr2 hk2 ht hvc
    have hs2 := hr2
    rw [plug_sibling] at hs2
    have hvl := hs2.links_top
    have hxl2 := hr2.links_frame
    have hvx : xp ≠ v := by
      rintro rfl
      have := (nodup_plug.mp hs2.nodup).2.2 xp (RbTree.mem_inorder_mk.mpr (.inr (.inl rfl)))
      exact this (mem_frameKeys_cons.mpr (.inl rfl))
    have hcx : h₂.rbColor (some xp) = e := by simp [rbColor, hxl2]
    have hvf' : (((h₂.rbSetColor (some v) e).rbSetColor (some xp) .black).links v).child d.flip =
        vf.top := by
      simp [rbSetColor_links, hvx, hvl]
    refine ⟨h3, .inl ⟨?_, [], u, hu, hu.root, ?_, ?_, m, ?_⟩⟩
    · simp [rbEraseFixupStep, he1, hxl, hwl, hcn, hcf, hbb, he2, hxl2, hcx, hvf', he3]
    · rw [plug_nil, hin3, ← hin1, plug_cons, plug_cons]
      apply inorder_plug_congr
      cases d <;> simp_all [RbTree.mk]
    · simp [← huc, RbTree.setColor_color]
    · simpa [← huc, RbTree.setColor_color] using hm

theorem Rep.root_ne_of_frame {f : Frame Ptr} (hr : h.Rep (plug (f :: k) t)) :
    t.top ≠ h.root := by
  obtain ⟨a, ha, htop⟩ : ∃ a ∈ frameKeys (f :: k), (plug (f :: k) t).top = some a := by
    clear hr
    induction k generalizing f t with
    | nil =>
      refine ⟨f.key, mem_frameKeys_cons.mpr (.inl rfl), ?_⟩
      exact RbTree.top_mk ..
    | cons g k ih =>
      obtain ⟨a, ha, htop⟩ := ih (f := g) (t := f.fill t)
      exact ⟨a, mem_frameKeys_cons.mpr (.inr (.inr ha)), htop⟩
  rw [hr.root, htop]
  intro ht
  exact (nodup_plug.mp hr.nodup).2.2 a (mem_inorder_of_top ht) ha

theorem eraseFixupLoop_spec (m : ℕ) (hr : h.Rep (plug k t))
    (hk : Fits k .black (n + 1)) (ht : t.Balanced n) (htc : t.color = .black)
    (hflag : SideFlag k l) (hm : k.length + 2 ≤ m) :
    ∃ h' x, rbEraseFixupLoop m h t.top (parentKey k) l = some (h', x) ∧
      h'.FixedAt x (plug k t).inorder := by
  induction m generalizing h k n t l with
  | zero => omega
  | succ m ih =>
  match k with
  | [] =>
    refine ⟨h, t.top, by simp [rbEraseFixupLoop, hr.root], [], t, hr, rfl, rfl, ?_, n, ?_⟩
    · simp [← htc, RbTree.setColor_color]
    · simpa [← htc, RbTree.setColor_color] using ht
  | ⟨d, c, xp, W⟩ :: k =>
    have hc : h.rbColor t.top = .black := by rw [hr.rbColor_top, htc]
    have hside : (if l then Side.left else Side.right) = d := hflag _ rfl
    have hturn := hr.root_ne_of_frame
    simp only [length_cons] at hm
    obtain ⟨h', ⟨hst, hfix⟩ | ⟨k', e, V, l', hst, hfl, hr', hin, hb, hcase⟩⟩ :=
      eraseFixupStep_spec (l := l) hr hk ht
    · exact ⟨h', h'.root, by simp [rbEraseFixupLoop, hturn, hc, hside, hst], hfix⟩
    · have hloop : rbEraseFixupLoop (m + 1) h t.top (some xp) l =
          rbEraseFixupLoop m h' (some xp) (parentKey k') l' := by
        simp [rbEraseFixupLoop, hturn, hc, hside, hst]
      rw [parentKey_cons, hloop]
      rcases hcase with ⟨rfl, hk'⟩ | ⟨rfl, rfl, hk'⟩
      · -- the parent is red: the loop stops there and the final write makes it black
        obtain ⟨m, rfl⟩ := Nat.exists_eq_succ_of_ne_zero (by omega : m ≠ 0)
        have hred : h'.rbColor (some xp) = .red := by
          rw [← RbTree.top_mk d .red t V xp, hr'.rbColor_top, RbTree.color_mk]
        refine ⟨h', some xp, by simp [rbEraseFixupLoop, hred], k', _, hr', by simp, hin, ?_⟩
        rw [RbTree.setColor_mk]
        exact Fits.plug (by simpa using hk') hb
      · obtain ⟨h'', x, hl, hfix⟩ := ih hr' hk' hb (by simp) hfl (by omega)
        rw [RbTree.top_mk] at hl
        exact ⟨h'', x, hl, hin ▸ hfix⟩

/-- After a node of colour `c` with the single child `r` is unlinked, the position of `r` is
repaired. -/
theorem eraseRepair_spec {r : RbTree Ptr} {z : Ptr} (hr : h.Rep (plug k r))
    (hk : Fits k c n) (hz : (RbTree.mk d c .nil z r).Balanced n)
    (hflag : r = .nil → SideFlag k l) (hm : k.length + 2 ≤ loopBound) :
    ∃ h' u, h.rbEraseRepair c r.top (parentKey k) l = some h' ∧
      h'.Rep u ∧ u.inorder = (plug k r).inorder ∧ u.color = .black ∧ ∃ m, u.Balanced m := by
  cases c with
  | red =>
    obtain ⟨-, hrc, hn, hrb⟩ := RbTree.balanced_mk_red.mp hz
    exact ⟨h, _, by simp [rbEraseRepair], hr, rfl, Fits.plug (by rw [hrc]; exact hk.black) hrb⟩
  | black =>
    cases n with
    | zero => cases d <;> simp [RbTree.mk, RbTree.Balanced] at hz
    | succ n =>
    obtain ⟨hn, hrb⟩ := RbTree.balanced_mk_black.mp hz
    have hfix : ∃ h' x, rbEraseFixupLoop loopBound h r.top (parentKey k) l = some (h', x) ∧
        h'.FixedAt x (plug k r).inorder := by
      cases hrc : r.color with
      | black =>
        have hnil : r = .nil := by
          cases r with
          | nil => rfl
          | node e _ _ _ => cases e <;> simp_all [RbTree.Balanced]
        exact eraseFixupLoop_spec loopBound hr hk hrb hrc (hflag hnil) hm
      | red =>
        have hred : h.rbColor r.top = .red := by rw [hr.rbColor_top, hrc]
        refine ⟨h, r.top, ?_, k, r, hr, rfl, rfl, ?_⟩
        · rw [show loopBound = (2 ^ 65 - 1) + 1 from rfl]
          simp [rbEraseFixupLoop, hred]
        · cases r with
          | nil => cases hrc
          | node e a b t =>
            obtain rfl : e = .red := hrc
            exact Fits.plug (t := .node .black a b t) hk ⟨n, rfl, hrb.2.2⟩
    obtain ⟨h', x, hl, j, t, ht, rfl, hin, hcol, hbal⟩ := hfix
    refine ⟨h'.rbSetColor t.top .black, _, by simp [rbEraseRepair, rbEraseFixup, hl], ht.setColor .black, ?_,
      hcol, hbal⟩
    rw [← hin]
    exact inorder_plug_congr j (by simp)

theorem HoldsAround.transplant {u : Ptr} {p : Option Ptr}
    (hk : h.HoldsAround k (some u)) (hu : h.rbParent (some u) = parentKey k)
    (ht : h.Holds p t) (hn : t.inorder.Nodup) (hkn : (frameKeys k).Nodup)
    (huk : u ∉ frameKeys k) (htk : ∀ a ∈ t.inorder, a ∉ frameKeys k) :
    (h.rbTransplant u t.top).HoldsAround k t.top ∧ (h.rbTransplant u t.top).Holds (parentKey k) t ∧
      ∀ a ∉ frameKeys k, (h.rbTransplant u t.top).links a =
        if t.top = some a then (h.links a).setParent (parentKey k) else h.links a := by
  obtain ⟨hk', he⟩ := hk.relink .left hkn huk (y := t.top)
  have hl : ∀ a ∉ frameKeys k, (h.rbTransplant u t.top).links a =
      if t.top = some a then (h.links a).setParent (parentKey k) else h.links a := by
    intro a ha
    simp only [rbTransplant, hu, rbSetParent_links, he a ha]
  refine ⟨hk'.congr ?_ ?_, ht.reparent hn ?_ ?_, hl⟩
  · simp [rbTransplant, hu]
  · intro a ha
    have hta : t.top ≠ some a := fun hta => htk a (mem_inorder_of_top hta) ha
    simp [rbTransplant, hu, rbSetParent_links, hta]
  · intro a ha
    rw [hl a (htk a (mem_inorder_of_top ha)), if_pos ha]
  · intro a ha hna
    rw [hl a (htk a ha), if_neg hna]

theorem Rep.transplant {z : Ptr} {r : RbTree Ptr} (hr : h.Rep (plug k (.mk d c .nil z r))) :
    (h.rbTransplant z r.top).Rep (plug k r) ∧
      ∀ a ∉ frameKeys k, a ∉ r.inorder → (h.rbTransplant z r.top).links a = h.links a := by
  obtain ⟨hk, ht, hn⟩ := rep_plug.mp hr
  obtain ⟨hz, -, hrh⟩ := holds_mk.mp ht
  obtain ⟨htn, hkn, hd⟩ := nodup_plug.mp hn
  obtain ⟨-, hrn, -, -, -⟩ := RbTree.nodup_mk.mp htn
  simp only [RbTree.mem_inorder_mk] at hd
  rw [RbTree.top_mk] at hk
  obtain ⟨hk', hr', hl⟩ := hk.transplant (by simp [rbParent, hz]) hrh hrn hkn
    (hd z (.inr (.inl rfl))) fun a ha => hd a (.inr (.inr ha))
  refine ⟨rep_plug.mpr ⟨hk', hr', ?_⟩, fun a ha har => ?_⟩
  · exact nodup_plug.mpr ⟨hrn, hkn, fun a ha => hd a (.inr (.inr ha))⟩
  · rw [hl a ha, if_neg fun hta => har (mem_inorder_of_top hta)]

theorem replace_spec {l r : RbTree Ptr} {y z : Ptr} {w : Option Ptr}
    (hk : h.HoldsAround k (some z)) (hz : h.links z = ⟨parentKey k, l.top, w, c⟩)
    (hl : h.Holds (some z) l) (hy : (h.links y).rbRight = r.top) (hr : h.Holds (some y) r)
    (hn : (plug k (.node c l y r)).inorder.Nodup) (hzk : z ∉ frameKeys k) (hzl : z ∉ l.inorder)
    (hzr : z ∉ r.inorder) (hzy : z ≠ y) : (h.rbEraseReplace z y).Rep (plug k (.node c l y r)) := by
  let h1 := h.rbTransplant z (some y)
  let h2 := h1.setChild .left y (h1.links z).rbLeft
  let h3 := h2.rbSetParent (h2.links y).rbLeft (some y)
  change (h3.rbSetColor (some y) (h3.rbColor (some z))).Rep (plug k (.node c l y r))
  obtain ⟨htn, hkn, hd⟩ := nodup_plug.mp hn
  obtain ⟨hln, -, hyl, hyr, hlr⟩ := (RbTree.nodup_mk (d := .left)).mp htn
  simp only [RbTree.inorder_node, mem_append, mem_cons] at hd
  have hyk : y ∉ frameKeys k := hd y (.inr (.inl rfl))
  -- transplant the single node `y` and look at its links only
  obtain ⟨hk1, he1⟩ := hk.relink .left hkn hzk (y := some y)
  have hp : h.rbParent (some z) = parentKey k := by simp [rbParent, hz]
  have hl1 (a : Ptr) (ha : a ∉ frameKeys k) : h1.links a =
      if y = a then (h.links a).setParent (parentKey k) else h.links a := by
    simp only [h1, rbTransplant, hp, rbSetParent_links, he1 a ha, some.injEq]
  have hz1 : h1.links z = ⟨parentKey k, l.top, w, c⟩ := by rw [hl1 z hzk, if_neg hzy.symm, hz]
  have hlt : ∀ a, l.top = some a → a ≠ y ∧ a ≠ z := fun a ha =>
    ⟨fun e => hyl (e ▸ mem_inorder_of_top ha), fun e => hzl (e ▸ mem_inorder_of_top ha)⟩
  have hly : l.top ≠ some y := fun e => (hlt y e).1 rfl
  have hlz : l.top ≠ some z := fun e => (hlt z e).2 rfl
  have hcz : h3.rbColor (some z) = c := by
    simp [h3, h2, rbColor, rbSetParent_links, RbLinks.setChild, hzy, hlz, hz1]
  have hfin (a : Ptr) (ha : a ∉ frameKeys k) (haz : a ≠ z) :
      (h3.rbSetColor (some y) (h3.rbColor (some z))).links a =
        if y = a then ⟨parentKey k, l.top, r.top, c⟩
        else if l.top = some a then (h.links a).setParent (some y) else h.links a := by
    rw [hcz]
    by_cases hya : y = a
    · subst hya
      simp [h3, h2, rbSetColor_links, rbSetParent_links, RbLinks.setChild, RbLinks.setColor,
        RbLinks.setParent, hly, hz1, hl1 y ha, hy]
    · have hay : a ≠ y := Ne.symm hya
      simp [h3, h2, rbSetColor_links, rbSetParent_links, RbLinks.setChild, hya, hay, hz1, hl1 a ha]
  refine rep_plug.mpr ⟨?_, ⟨?_, ?_, ?_⟩, hn⟩
  · refine hk1.congr ?_ fun a ha => ?_
    · simp [h3, h2, h1, rbTransplant, hp]
    · have hya : y ≠ a := fun e => hyk (e ▸ ha)
      have hla : l.top ≠ some a := fun e => hd a (.inl (mem_inorder_of_top e)) ha
      simp [h3, h2, h1, rbSetColor_links, rbSetParent_links, RbLinks.setChild, hya, hya.symm,
        rbTransplant, hp, he1 z hzk, hzy.symm, hz, hla]
  · rw [hfin y hyk hzy.symm, if_pos rfl]
  · refine hl.reparent hln (fun a ha => ?_) fun a ha hna => ?_
    · rw [hfin a (hd a (.inl (mem_inorder_of_top ha))) (hlt a ha).2, if_neg (hlt a ha).1.symm,
        if_pos ha]
    · rw [hfin a (hd a (.inl ha)) fun e => hzl (e ▸ ha), if_neg (show y ≠ a from fun e => hyl (e ▸ ha)),
        if_neg hna]
  · refine hr.congr fun a ha => ?_
    have hla : l.top ≠ some a := fun e => hlr a (mem_inorder_of_top e) ha
    rw [hfin a (hd a (.inr (.inr ha))) fun e => hzr (e ▸ ha), if_neg (show y ≠ a from fun e => hyr (e ▸ ha)),
      if_neg hla]

theorem rbMinimumLoop_spec (m : ℕ) {p : Option Ptr}
    (hh : h.Holds p t) (ha : t.top = some a) (hm : t.inorder.length ≤ m) :
    ∃ k c y r, t = plug k (.node c .nil y r) ∧ (∀ f ∈ k, f.side = .left) ∧
      rbMinimumLoop m h a = some y := by
  induction t generalizing p a m with
  | nil => simp at ha
  | node c l b r ihl =>
    obtain ⟨hb, hl, -⟩ := hh
    simp only [RbTree.top_node, some.injEq] at ha
    subst ha
    simp only [RbTree.inorder_node, length_append, length_cons] at hm
    obtain ⟨m, rfl⟩ := Nat.exists_eq_succ_of_ne_zero (by omega : m ≠ 0)
    cases l with
    | nil => exact ⟨[], c, b, r, rfl, by simp, by simp [rbMinimumLoop, hb]⟩
    | node e u x v =>
      obtain ⟨k, c', y, r', hp, hs, hmin⟩ := ihl m hl rfl (by omega)
      refine ⟨k ++ [⟨.left, c, b, r⟩], c', y, r', ?_, ?_, ?_⟩
      · rw [plug_append, ← hp]
        rfl
      · intro f hf
        rcases List.mem_append.mp hf with hf | hf
        · exact hs f hf
        · rw [List.mem_singleton.mp hf]
      · simp [rbMinimumLoop, hb, hmin]

variable {j : List (Frame Ptr)}

theorem fits_key_irrel {k : List (Frame Ptr)} {s : RbTree Ptr} {b : Ptr}
    (hk : Fits (j ++ ⟨d, c, a, s⟩ :: k) e n) : Fits (j ++ ⟨d, c, b, s⟩ :: k) e n := by
  induction j generalizing e n with
  | nil => exact hk
  | cons f j ih =>
    obtain ⟨x, col, y, z⟩ := f
    cases col with
    | red =>
      obtain ⟨h1, h2, h3, h4⟩ := fits_red.mp hk
      exact fits_red.mpr ⟨h1, h2, h3, ih h4⟩
    | black =>
      obtain ⟨h1, h2⟩ := fits_black.mp hk
      exact fits_black.mpr ⟨h1, ih h2⟩

theorem before_eq_nil (hj : ∀ f ∈ j, f.side = .left) : before j = [] := by
  induction j with
  | nil => rfl
  | cons f j ih =>
    rw [before, ih fun g hg => hj g (by simp [hg]), hj f (by simp)]
    rfl

theorem eraseDetach_spec {l yr : RbTree Ptr} {z y : Ptr} {cy : Color}
    (hr : h.Rep (plug (j ++ ⟨.right, c, z, l⟩ :: k) (.node cy .nil y yr)))
    (hj : ∀ f ∈ j, f.side = .left) :
    ∃ h' xp b, h.rbEraseDetach z y yr.top = some (h', xp, b) ∧
      parentKey (j ++ ⟨.right, c, y, l⟩ :: k) = some xp ∧
      (yr = .nil → SideFlag (j ++ ⟨.right, c, y, l⟩ :: k) b) ∧ h'.HoldsAround k (some z) ∧
      h'.links z = ⟨parentKey k, l.top, (h'.links z).rbRight, c⟩ ∧ h'.Holds (some z) l ∧
      (h'.links y).rbRight = (plug j yr).top ∧ h'.Holds (some y) (plug j yr) := by
  have hly := Rep.links_top (d := .left) hr
  have hyn := (rep_plug.mp hr).2.2
  have hpy : h.rbParent (some y) = parentKey (j ++ ⟨.right, c, z, l⟩ :: k) := by
    simp [rbParent, hly]
  cases j with
  | nil =>
    have hr' : h.Rep (plug k (.node c l z (.node cy .nil y yr))) := hr
    obtain ⟨hk, ⟨hz, hl, hyr⟩, -⟩ := rep_plug.mp hr'
    refine ⟨h, y, false, ?_, rfl, ?_, hk, by rw [hz], hl, by simp [hly, RbLinks.mk'], hyr.2.2⟩
    · simp [rbEraseDetach, hpy]
    · simp [SideFlag]
  | cons f j =>
    have hpos (t : RbTree Ptr) : plug (f :: j ++ ⟨.right, c, z, l⟩ :: k) t =
        plug k (.node c l z (plug (f :: j) t)) := by rw [plug_append]; rfl
    obtain ⟨hr1, -⟩ := Rep.transplant (d := .left) hr
    rw [hpos] at hr1 hyn
    generalize hu : plug (f :: j) yr = u at hr1 ⊢
    have hjr : (plug (f :: j) (.node cy .nil y yr)).inorder = y :: u.inorder := by
      rw [← hu, inorder_plug, inorder_plug, before_eq_nil hj]
      simp
    obtain ⟨htn, -, hd⟩ := nodup_plug.mp hyn
    simp only [RbTree.inorder_node, hjr, mem_append, mem_cons, nodup_append,
      nodup_cons, not_or] at htn hd
    obtain ⟨-, ⟨⟨hzy, hzr⟩, hyr, hun⟩, hlr⟩ := htn
    obtain ⟨hk, ⟨hz, hl, hu1⟩, -⟩ := rep_plug.mp hr1
    have hyu : u.top ≠ some y := fun e => hyr (mem_inorder_of_top e)
    let h1 := h.rbTransplant y yr.top
    let h2 := h1.setChild .right y u.top
    have hy2 : (h2.links y).rbRight = u.top := by simp [h2, RbLinks.setChild]
    have hl3 (a : Ptr) (hya : a ≠ y) : (h2.rbSetParent u.top (some y)).links a =
        if u.top = some a then (h1.links a).setParent (some y) else h1.links a := by
      simp [h2, rbSetParent_links, hya]
    have hout (a : Ptr) (hya : a ≠ y) (hau : a ∉ u.inorder) :
        (h2.rbSetParent u.top (some y)).links a = h1.links a := by
      rw [hl3 a hya, if_neg fun e => hau (mem_inorder_of_top e)]
    have hfz : f.key ≠ z := by
      intro e
      have hf : f.key ∈ u.inorder := hu ▸ mem_inorder_plug.mpr (.inr (mem_frameKeys_cons.mpr (.inl rfl)))
      exact hzr (e ▸ hf)
    have hfy : (h.links f.key).rbLeft = some y := by
      obtain ⟨d, e, x, t⟩ := f
      obtain rfl : d = .left := hj _ mem_cons_self
      rw [Rep.links_frame hr]
      rfl
    let b := yr.top.elim (decide ((h.links f.key).rbLeft = some y)) fun x =>
      decide ((h.links f.key).rbLeft = some x)
    refine ⟨h2.rbSetParent u.top (some y), f.key, b, ?_, rfl, ?_, hk.congr (by simp [h2, h1]) ?_,
      ?_, hl.congr ?_, ?_, hu1.reparent hun ?_ ?_⟩
    · have hyr' : (h.links y).rbRight = yr.top := by simp [hly, RbLinks.mk']
      have hzu : (h1.links z).rbRight = u.top := by rw [hz]
      simp only [rbEraseDetach, hpy, cons_append, parentKey_cons, some.injEq, hfz,
        hyr', b]
      rw [hzu, hy2]
      refine congrArg (fun b => some (h2.rbSetParent u.top (some y), f.key, b)) ?_
      cases yr.top <;> rfl
    · rintro rfl
      simp [SideFlag, b, hfy, hj f (by simp)]
    · exact fun a ha => hout a (fun e => hd a (.inr (.inr (.inl e))) ha)
        fun hau => hd a (.inr (.inr (.inr hau))) ha
    · rw [hout z hzy hzr, hz]
    · exact fun a ha => hout a (hlr a ha y (.inr (.inl rfl)))
        fun hau => hlr a ha a (.inr (.inr hau)) rfl
    · simp [rbSetParent_links, hyu, hy2]
    · intro a ha
      rw [hl3 a fun e => hyu (e ▸ ha), if_pos ha]
    · intro a ha hna
      rw [hl3 a fun e => hyr (e ▸ ha), if_neg hna]

theorem rbEraseNode_spec {l r : RbTree Ptr} {z : Ptr} (hr : h.Rep (plug k (.node c l z r)))
    (hc : (plug k (.node c l z r)).color = .black) (hb : (plug k (.node c l z r)).Balanced n)
    (hm : (plug k (.node c l z r)).inorder.length + 2 ≤ loopBound) :
    ∃ h' u, rbEraseNode h z = some h' ∧ h'.Rep u ∧
      u.inorder = before k ++ (l.inorder ++ r.inorder) ++ after k ∧ u.color = .black ∧
      ∃ m, u.Balanced m := by
  have hlen : k.length + 2 ≤ loopBound := by
    have := length_le_inorder_plug k (.node c l z r)
    omega
  obtain ⟨n, hzb, hk⟩ := fits_of_plug hc hb
  have hlz : h.links z = ⟨parentKey k, l.top, r.top, c⟩ := Rep.links_top (d := .left) hr
  have hpz : h.rbParent (some z) = parentKey k := by simp [rbParent, hlz]
  have hcz : h.rbColor (some z) = c := by simp [rbColor, hlz]
  have hflag : SideFlag k (h.isLeftOf z (parentKey k) false) := sideFlag_of_rep hr rfl
  by_cases hl : l = .nil
  · subst hl
    have hr' := (Rep.transplant (d := .left) hr).1
    obtain ⟨h', u, he, hu, hin, hrest⟩ :=
      eraseRepair_spec (d := .left) hr' hk hzb (fun _ => hflag) hlen
    refine ⟨h', u, ?_, hu, ?_, hrest⟩
    · simpa [rbEraseNode, hlz, hpz, hcz] using he
    · rw [hin, inorder_plug]
      simp
  by_cases hrn : r = .nil
  · subst hrn
    have hr' := (Rep.transplant (d := .right) hr).1
    obtain ⟨h', u, he, hu, hin, hrest⟩ :=
      eraseRepair_spec (d := .right) hr' hk hzb (fun _ => hflag) hlen
    obtain ⟨a, ha⟩ := RbTree.exists_top hl
    refine ⟨h', u, ?_, hu, ?_, hrest⟩
    · rw [ha] at hlz he
      simpa [rbEraseNode, hlz, hpz, hcz] using he
    · rw [hin, inorder_plug]
      simp
  obtain ⟨b, hrb⟩ := RbTree.exists_top hrn
  obtain ⟨a, hla⟩ := RbTree.exists_top hl
  obtain ⟨-, ⟨-, -, hrh⟩, hn⟩ := rep_plug.mp hr
  have hrlen : r.inorder.length ≤ loopBound := by
    have := length_le_inorder_plug k (.node c l z r)
    simp only [RbTree.inorder_node, length_append, length_cons] at this
    omega
  obtain ⟨j, cy, y, yr, rfl, hj, hmin⟩ := rbMinimumLoop_spec loopBound hrh hrb hrlen
  -- the position of the successor below `z`, and the one it has after taking the place of `z`
  have hpos (x : Ptr) (t : RbTree Ptr) : plug (j ++ ⟨.right, c, x, l⟩ :: k) t =
      plug k (.node c l x (plug j t)) := by rw [plug_append]; rfl
  rw [← hpos] at hr hc hb hm
  obtain ⟨q, hyb, hky⟩ := fits_of_plug hc hb
  have hly : h.links y = ⟨parentKey (j ++ ⟨.right, c, z, l⟩ :: k), none, yr.top, cy⟩ :=
    Rep.links_top (d := .left) hr
  have hcy : h.rbColor (some y) = cy := by simp [rbColor, hly]
  have hjr : (plug j (.node cy .nil y yr)).inorder = y :: (plug j yr).inorder := by
    rw [inorder_plug, inorder_plug, before_eq_nil hj]
    simp
  obtain ⟨htn, hkn, hd⟩ := nodup_plug.mp hn
  simp only [RbTree.inorder_node, hjr, mem_append, mem_cons, nodup_append,
    nodup_cons, not_or] at htn hd
  obtain ⟨hln, ⟨⟨hzy, hzr⟩, hyr, hrn'⟩, hlr⟩ := htn
  have hn' : (plug k (.node c l y (plug j yr))).inorder.Nodup := by
    refine nodup_plug.mpr ⟨?_, hkn, fun x hx => ?_⟩
    · simp only [RbTree.inorder_node, nodup_append, nodup_cons, mem_cons]
      exact ⟨hln, ⟨hyr, hrn'⟩, fun x hx w hw => hlr x hx w (.inr hw)⟩
    · simp only [RbTree.inorder_node, mem_append, mem_cons] at hx
      exact hd x (by tauto)
  obtain ⟨h₁, xp, b', he1, hxp, hfl, hk1, hz1, hl1, hy1, hr1⟩ := eraseDetach_spec hr hj
  have hrep := replace_spec hk1 hz1 hl1 hy1 hr1 hn' (hd z (.inr (.inl rfl)))
    (fun hzl => hlr z hzl z (.inl rfl) rfl) hzr hzy
  rw [← hpos] at hrep
  have hlen' : (j ++ ⟨.right, c, y, l⟩ :: k).length + 2 ≤ loopBound := by
    have := length_le_inorder_plug (j ++ ⟨.right, c, z, l⟩ :: k) (.node cy .nil y yr)
    simp only [length_append, length_cons] at this ⊢
    omega
  obtain ⟨h', u, he, hu, hin, hrest⟩ :=
    eraseRepair_spec (d := .left) hrep (fits_key_irrel hky) hyb hfl hlen'
  refine ⟨h', u, ?_, hu, ?_, hrest⟩
  · rw [hla, hrb] at hlz
    rw [hxp] at he
    simpa [rbEraseNode, hlz, rbMinimum, hmin, hly, hcy, he1] using he
  · rw [hin, hpos, inorder_plug, hjr]
    rfl

end RbHeap
end Doppio
