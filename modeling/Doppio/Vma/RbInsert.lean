import Doppio.Vma.RbRep

/-! `rb_insert_fixup` restores the colour rules above a new red node and keeps the order. -/
namespace Doppio
open RedBlack
namespace RbHeap

variable {h : RbHeap} {k : List (Frame Ptr)} {d : Side}

theorem insertFixupStep_recolor {e : Side} {s u z : RbTree Ptr} {p g : Ptr} (zp : Ptr)
    (hr : h.Rep (plug (⟨e, .red, p, s⟩ :: ⟨d, .black, g, u⟩ :: k) z)) (hu : u.color = .red) :
    ∃ h', rbInsertFixupStep d h zp p g = some (h', g) ∧
      h'.Rep (plug k (.mk d .red (.mk e .black z p s) g (u.setColor .black))) := by
  rw [plug_cons] at hr
  have hg := hr.links_frame
  have huc : h.rbColor u.top = .red := by
    rw [plug_sibling] at hr
    rw [hr.rbColor_top, hu]
  have h1 := hr.setColor .black
  rw [RbTree.setColor_mk, plug_sibling] at h1
  have h2 := h1.setColor .black
  rw [plug_cons, RbTree.mk_flip] at h2
  have h3 := h2.setColor .red
  rw [RbTree.setColor_mk] at h3
  refine ⟨_, ?_, h3⟩
  simp [rbInsertFixupStep, hg, huc]

theorem insertFixupRotate_spec {c e : Color} {z s u : RbTree Ptr} {p g : Ptr}
    (hr : h.Rep (plug k (.mk d e (.mk d c z p s) g u))) :
    ∃ h', rbInsertFixupRotate d h (some p) (some g) = some h' ∧
      h'.Rep (plug k (.mk d .black z p (.mk d .red s g u))) := by
  have h1 := Rep.setColor (k := ⟨d, e, g, u⟩ :: k) (t := .mk d c z p s) hr .black
  rw [RbTree.setColor_mk, plug_cons] at h1
  have h2 := h1.setColor .red
  rw [RbTree.setColor_mk] at h2
  obtain ⟨h', he, h3⟩ := h2.rotate_flip
  exact ⟨h', by simpa [rbInsertFixupRotate] using he, h3⟩

theorem insertFixupStep_outer {s u z : RbTree Ptr} {p g zp : Ptr} (hz : z.top = some zp)
    (hr : h.Rep (plug (⟨d, .red, p, s⟩ :: ⟨d, .black, g, u⟩ :: k) z)) (hu : u.color = .black) :
    ∃ h', rbInsertFixupStep d h zp p g = some (h', zp) ∧
      h'.Rep (plug k (.mk d .black z p (.mk d .red s g u))) := by
  have hne := hr.frame_ne hz
  have hp := hr.links_frame
  rw [plug_cons] at hr
  have hg := hr.links_frame
  have huc : h.rbColor u.top = .black := by
    rw [plug_sibling] at hr
    rw [hr.rbColor_top, hu]
  obtain ⟨h', he, hr'⟩ := insertFixupRotate_spec (by rwa [plug_cons] at hr)
  refine ⟨h', ?_, hr'⟩
  simp [rbInsertFixupStep, hg, huc, hp, hne, he]

variable {z : Ptr}

theorem insertFixupStep_inner {s u zn zf : RbTree Ptr} {p g : Ptr}
    (hr : h.Rep (plug (⟨d.flip, .red, p, s⟩ :: ⟨d, .black, g, u⟩ :: k) (.mk d .red zn z zf)))
    (hu : u.color = .black) :
    ∃ h', rbInsertFixupStep d h z p g = some (h', p) ∧
      h'.Rep (plug k (.mk d .black (.mk d .red s p zn) z (.mk d .red zf g u))) := by
  have hp := hr.links_frame
  rw [plug_cons, RbTree.mk_flip] at hr
  have hg := hr.links_frame
  have huc : h.rbColor u.top = .black := by
    have hr' := hr
    rw [plug_sibling] at hr'
    rw [hr'.rbColor_top, hu]
  obtain ⟨h1, he1, hr1⟩ := hr.rotate
  have hq : h1.rbParent (some p) = some z :=
    Rep.rbParent_top (k := ⟨d, .red, z, zf⟩ :: ⟨d, .black, g, u⟩ :: k) hr1 (by simp)
  have hg1 : h1.rbParent (some z) = some g := hr1.rbParent_top (by simp)
  rw [plug_cons] at hr1
  obtain ⟨h', he, hr'⟩ := insertFixupRotate_spec hr1
  refine ⟨h', ?_, hr'⟩
  simp [rbInsertFixupStep, hg, huc, hp, he1, hq, hg1, he]

/-- After the loop: the same nodes in order, balanced once the root is black. -/
def Fixed (h' : RbHeap) (xs : List Ptr) : Prop :=
  ∃ t, h'.Rep t ∧ t.inorder = xs ∧ ∃ n, (t.setColor .black).Balanced n

theorem insertFixupLoop_stop {n m : ℕ} {t : RbTree Ptr} (hr : h.Rep (plug k t))
    (htop : t.top = some z) (hk : Fits k t.color n) (ht : t.Balanced n)
    (hc : h.rbColor (parentKey k) = .black) :
    rbInsertFixupLoop (m + 1) h z = some h ∧ h.Fixed (plug k t).inorder := by
  have hp : h.rbParent (some z) = parentKey k := hr.rbParent_top htop
  obtain ⟨-, q, hq⟩ := hk.plug ht
  exact ⟨by simp [rbInsertFixupLoop, hp, hc], _, hr, rfl, hq.setBlack⟩

theorem insertFixupLoop_spec (m : ℕ) {n : ℕ} {t : RbTree Ptr} (hr : h.Rep (plug k t))
    (htop : t.top = some z) (hc : t.color = .red) (hk : Fits k .black n) (ht : t.Balanced n)
    (hm : k.length < m) :
    ∃ h', rbInsertFixupLoop m h z = some h' ∧ h'.Fixed (plug k t).inorder := by
  have hp : h.rbParent (some z) = parentKey k := hr.rbParent_top htop
  -- the loop climbs two frames at a time
  induction m using Nat.strong_induction_on generalizing h k n t z with
  | _ m ih =>
  match k, hk with
  | [], _ =>
    obtain ⟨m, rfl⟩ := Nat.exists_eq_succ_of_ne_zero (by omega : m ≠ 0)
    refine ⟨h, ?_, _, hr, rfl, ht.setBlack⟩
    simp [rbInsertFixupLoop, hp, rbColor]
  | ⟨e, .black, p, s⟩ :: k, hk =>
    obtain ⟨m, rfl⟩ := Nat.exists_eq_succ_of_ne_zero (by omega : m ≠ 0)
    exact ⟨h, insertFixupLoop_stop hr htop hk ht (by simp [rbColor, hr.links_frame])⟩
  | ⟨e, .red, p, s⟩ :: [], hk => simp at hk
  | ⟨e, .red, p, s⟩ :: ⟨d, .red, g, u⟩ :: k, hk => simp at hk
  | ⟨e, .red, p, s⟩ :: ⟨d, .black, g, u⟩ :: k, hk =>
    obtain ⟨hs, -, hsc, hu, hk⟩ := hk
    obtain ⟨m, rfl⟩ := Nat.exists_eq_succ_of_ne_zero (by omega : m ≠ 0)
    have hpl := hr.links_frame
    have hgp : h.rbParent (some p) = some g := by simp [rbParent, hpl]
    have hgl : h.links g = .mk' d (parentKey k) (some p) u.top .black := by
      have := hr
      rw [plug_cons] at this
      simpa using this.links_frame
    have hside : (if (h.links g).rbLeft = some p then Side.left else Side.right) = d := by
      cases d with
      | left => simp [hgl, RbLinks.mk']
      | right =>
        have := hr
        rw [plug_cons] at this
        have hne := this.frame_ne (b := p) (by simp)
        simp [hgl, RbLinks.mk', hne]
    have hturn (h' : RbHeap) (x : Ptr) (hst : rbInsertFixupStep d h z p g = some (h', x)) :
        rbInsertFixupLoop (m + 1) h z = rbInsertFixupLoop m h' x := by
      simp [rbInsertFixupLoop, hp, rbColor, hpl, hgp, hside, hst]
    simp only [List.length_cons] at hm
    cases huc : u.color with
    | red =>
      obtain ⟨un, ua, uf, rfl⟩ := RbTree.exists_mk_of_red huc d
      obtain ⟨h', hst, hr'⟩ := insertFixupStep_recolor z hr huc
      rw [hturn h' g hst]
      have hub := RbTree.balanced_mk_red.mp hu
      have htb : (RbTree.mk e .black t p s).Balanced (n + 1) :=
        RbTree.balanced_mk_black.mpr ⟨ht, hs⟩
      have hub' : (RbTree.mk d .black un ua uf).Balanced (n + 1) :=
        RbTree.balanced_mk_black.mpr hub.2.2
      rw [RbTree.setColor_mk] at hr'
      obtain ⟨h'', hl', hfix⟩ := ih m (by omega) (z := g) hr' (by simp) (by simp) hk
        (RbTree.balanced_mk_red.mpr ⟨by simp, by simp, htb, hub'⟩) (by omega)
        (hr'.rbParent_top (by simp))
      refine ⟨h'', hl', ?_⟩
      convert hfix using 1
      rw [plug_cons, plug_cons]
      apply inorder_plug_congr
      cases d <;> cases e <;> simp [RbTree.mk]
    | black =>
      obtain ⟨m, rfl⟩ := Nat.exists_eq_succ_of_ne_zero (by omega : m ≠ 0)
      rcases Side.eq_or_eq_flip d e with rfl | rfl
      · obtain ⟨h', hst, hr'⟩ := insertFixupStep_outer htop hr huc
        rw [hturn h' z hst]
        rw [← plug_cons] at hr'
        have hfit : Fits (⟨e, .black, p, .mk e .red s g u⟩ :: k) .red n :=
          fits_black.mpr ⟨RbTree.balanced_mk_red.mpr ⟨hsc, huc, hs, hu⟩, hk⟩
        have hstop := insertFixupLoop_stop (m := m) hr' htop (hc ▸ hfit) ht
          (by simp [rbColor, hr'.links_frame])
        refine ⟨h', hstop.1, ?_⟩
        convert hstop.2 using 1
        rw [plug_cons, plug_cons, plug_cons]
        apply inorder_plug_congr
        cases e <;> simp [RbTree.mk]
      · obtain ⟨zn, z', zf, rfl⟩ := RbTree.exists_mk_of_red hc d
        obtain rfl : z' = z := by simpa using htop
        obtain ⟨hznc, hzfc, hzn, hzf⟩ := RbTree.balanced_mk_red.mp ht
        obtain ⟨h', hst, hr'⟩ := insertFixupStep_inner hr huc
        rw [hturn h' p hst]
        rw [← plug_cons] at hr'
        have hfit : Fits (⟨d, .black, z', .mk d .red zf g u⟩ :: k) .red n :=
          fits_black.mpr ⟨RbTree.balanced_mk_red.mpr ⟨hzfc, huc, hzf, hu⟩, hk⟩
        have hstop := insertFixupLoop_stop (m := m) (t := .mk d .red s p zn) (z := p) hr' (by simp)
          (by simpa using hfit) (RbTree.balanced_mk_red.mpr ⟨hsc, hznc, hs, hzn⟩)
          (by simp [rbColor, hr'.links_frame])
        refine ⟨h', hstop.1, ?_⟩
        convert hstop.2 using 1
        rw [plug_cons, plug_cons, plug_cons]
        apply inorder_plug_congr
        cases d <;> simp [RbTree.mk, Side.flip]

theorem rbInsertFixup_spec {n : ℕ} {t : RbTree Ptr} (hr : h.Rep (plug k t))
    (htop : t.top = some z) (hc : t.color = .red) (hk : Fits k .black n) (ht : t.Balanced n)
    (hm : k.length < loopBound) :
    ∃ h' t', rbInsertFixup h z = some h' ∧ h'.Rep t' ∧ t'.inorder = (plug k t).inorder ∧
      t'.color = .black ∧ ∃ m, t'.Balanced m := by
  obtain ⟨h1, he, t', ht', hin, m, hb⟩ := insertFixupLoop_spec loopBound hr htop hc hk ht hm
  refine ⟨h1.rbSetColor h1.root .black, t'.setColor .black, by simp [rbInsertFixup, he], ?_,
    by simpa using hin, ?_, m, hb⟩
  · rw [ht'.root]
    exact Rep.setColor (k := []) ht' .black
  · cases t' <;> rfl

end RbHeap
end Doppio
