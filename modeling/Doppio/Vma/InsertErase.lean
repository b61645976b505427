import Doppio.Vma.Area
import Doppio.Vma.RbErase
import Doppio.Vma.RbInsert

/-! `vma_insert` and `vma_erase` keep a balanced search tree on `start` and the list its in-order
sequence. -/
namespace Doppio
open RedBlack Nat Option
namespace VmaSpace
variable {κ : Type} {s : VmaSpace κ} {t : RbTree Ptr}

/-- The areas of `t` are indexed by the tree and by the list of `s`. -/
structure Indexed (s : VmaSpace κ) (t : RbTree Ptr) : Prop where
  rep : s.tree.Rep t
  black : t.color = .black
  balanced : ∃ n, t.Balanced n
  ring : s.list.Ring .head (t.inorder.map .area)
  sorted : t.inorder.Pairwise fun p q => (s.range p).start < (s.range q).start
  start_lt : ∀ p ∈ t.inorder, (s.range p).start < 2 ^ 64

theorem Indexed.length_le (hi : s.Indexed t) : t.inorder.length ≤ 2 ^ 64 := by
  have hn : (t.inorder.map fun p => (s.range p).start).Nodup :=
    (List.pairwise_map.mpr hi.sorted).imp fun h => h.ne
  have hsub : (t.inorder.map fun p => (s.range p).start).toFinset ⊆ Finset.range (2 ^ 64) := by
    intro x hx
    obtain ⟨p, hp, rfl⟩ := List.mem_map.mp (List.mem_toFinset.mp hx)
    exact Finset.mem_range.mpr (hi.start_lt p hp)
  calc t.inorder.length = (t.inorder.map fun p => (s.range p).start).toFinset.card := by
        rw [List.toFinset_card_of_nodup hn, List.length_map]
    _ ≤ (Finset.range (2 ^ 64)).card := Finset.card_le_card hsub
    _ = 2 ^ 64 := Finset.card_range _

theorem Indexed.length_lt (hi : s.Indexed t) : t.inorder.length + 2 ≤ loopBound := by
  have := hi.length_le
  norm_num [loopBound] at this ⊢
  omega

/-- The position `k` separates the areas starting up to `st` from the later ones. -/
def SplitsAt (s : VmaSpace κ) (st : ℕ) (k : List (Frame Ptr)) : Prop :=
  (∀ q ∈ before k, (s.range q).start ≤ st) ∧ ∀ q ∈ after k, st < (s.range q).start

variable {k : List (Frame Ptr)}

theorem vmaInsertLoop_spec (st n : ℕ) {p : Option Ptr} (hh : s.tree.Holds p t)
    (hs : t.inorder.Pairwise fun p q => (s.range p).start < (s.range q).start)
    (hk : s.SplitsAt st k) (hn : t.inorder.length < n) :
    ∃ k', plug k' .nil = plug k t ∧ s.SplitsAt st k' ∧
      vmaInsertLoop n s st (parentKey k) t.top = some (parentKey k') := by
  induction t generalizing n k p with
  | nil =>
    obtain ⟨n, rfl⟩ := exists_eq_succ_of_ne_zero (ne_of_gt hn)
    exact ⟨k, rfl, hk, rfl⟩
  | node c l x r ihl ihr =>
    obtain ⟨hx, hl, hr⟩ := hh
    simp only [RbTree.inorder_node, List.pairwise_append, List.pairwise_cons, List.mem_cons,
      List.length_append, List.length_cons] at hs hn
    obtain ⟨n, rfl⟩ := exists_eq_succ_of_ne_zero (by omega : n ≠ 0)
    obtain ⟨hsl, ⟨hxr, hsr⟩, hlx⟩ := hs
    by_cases hst : st < (s.range x).start
    · have hk' : s.SplitsAt st (⟨.left, c, x, r⟩ :: k) := by
        refine ⟨by simpa [before] using hk.1, fun q hq => ?_⟩
        simp only [after, List.cons_append, List.mem_cons, List.mem_append] at hq
        rcases hq with rfl | hq | hq
        · exact hst
        · exact hst.trans (hxr q hq)
        · exact hk.2 q hq
      obtain ⟨k', he, hk', hloop⟩ := ihl n hl hsl hk' (by omega)
      exact ⟨k', he, hk', by simpa [vmaInsertLoop, hst, hx] using hloop⟩
    · have hk' : s.SplitsAt st (⟨.right, c, x, l⟩ :: k) := by
        refine ⟨fun q hq => ?_, by simpa [after] using hk.2⟩
        simp only [before, List.mem_append, List.mem_singleton] at hq
        rcases hq with hq | hq | rfl
        · exact hk.1 q hq
        · exact (hlx q hq x (.inl rfl)).le.trans (not_lt.mp hst)
        · exact not_lt.mp hst
      obtain ⟨k', he, hk', hloop⟩ := ihr n hr hsr hk' (by omega)
      exact ⟨k', he, hk', by simpa [vmaInsertLoop, hst, hx] using hloop⟩

theorem rep_leaf (h : RbHeap) (z : Ptr) :
    RbHeap.Rep { h.setLinks z ⟨none, none, none, .red⟩ with root := some z }
      (.node .red .nil z .nil) :=
  ⟨rfl, ⟨by simp [RbHeap.setLinks], trivial, trivial⟩, by simp⟩

variable {z : Ptr}

theorem rep_leaf_below {h : RbHeap} {f : Frame Ptr}
    (hr : h.Rep (plug (f :: k) .nil)) (hz : z ∉ (plug (f :: k) .nil).inorder) :
    ((h.setLinks z ⟨some f.key, none, none, .red⟩).setChild f.side f.key (some z)).Rep
      (plug (f :: k) (.node .red .nil z .nil)) := by
  obtain ⟨d, c, y, u⟩ := f
  obtain ⟨hk, -, hn⟩ := RbHeap.rep_plug.mp hr
  obtain ⟨-, hkn, -⟩ := nodup_plug.mp hn
  obtain ⟨hy, hu, hk⟩ := RbHeap.holdsAround_cons.mp hk
  have hz' : z ∉ frameKeys (⟨d, c, y, u⟩ :: k) := fun h => hz (mem_inorder_plug.mpr (.inr h))
  have hzy : z ≠ y := fun e => hz' (mem_frameKeys_cons.mpr (.inl e))
  have hout (a : Ptr) (haz : a ≠ z) (hay : a ≠ y) :
      ((h.setLinks z ⟨some y, none, none, .red⟩).setChild d y (some z)).links a = h.links a := by
    simp [haz, hay]
  have hyk : y ∉ u.inorder ∧ y ∉ frameKeys k := by
    obtain ⟨htn, -, hd⟩ := nodup_plug.mp ((plug_cons d c y u .nil k) ▸ hn)
    exact ⟨(RbTree.nodup_mk.mp htn).2.2.2.1, hd y (RbTree.mem_inorder_mk.mpr (.inr (.inl rfl)))⟩
  refine RbHeap.rep_plug.mpr ⟨RbHeap.holdsAround_cons.mpr ⟨?_, hu.congr ?_, hk.congr rfl ?_⟩,
    ⟨?_, trivial, trivial⟩, ?_⟩
  · simp [hzy.symm, hy]
  · intro a ha
    exact hout a (fun e => hz' (mem_frameKeys_cons.mpr (.inr (.inl (e ▸ ha)))))
      fun e => hyk.1 (e ▸ ha)
  · intro a ha
    exact hout a (fun e => hz' (mem_frameKeys_cons.mpr (.inr (.inr (e ▸ ha)))))
      fun e => hyk.2 (e ▸ ha)
  · simp [hzy]
  · exact nodup_plug.mpr ⟨by simp, hkn, by simpa using hz'⟩

theorem vmaInsertLink_spec (hr : s.tree.Rep (plug k .nil))
    (hring : s.list.Ring .head ((plug k .nil).inorder.map .area))
    (hz : z ∉ (plug k .nil).inorder) (hk : s.SplitsAt (s.range z).start k) :
    ∃ tree list, ({ s with tree := s.tree.setLinks z ⟨parentKey k, none, none, .red⟩ } :
        VmaSpace κ).vmaInsertLink z (parentKey k) = some { s with tree := tree, list := list } ∧
      tree.Rep (plug k (.node .red .nil z .nil)) ∧
      list.Ring .head ((plug k (.node .red .nil z .nil)).inorder.map .area) := by
  have hin : (plug k (.nil : RbTree Ptr)).inorder.map VmaNode.area =
      (before k).map .area ++ (after k).map .area := by simp [inorder_plug]
  have hout : (plug k (.node .red .nil z .nil)).inorder.map VmaNode.area =
      (before k).map .area ++ .area z :: (after k).map .area := by simp [inorder_plug]
  have hznew : VmaNode.area z ∉ VmaNode.head :: ((before k).map .area ++ (after k).map .area) := by
    simpa [inorder_plug] using hz
  rw [hin] at hring
  have hlink := hring.link_cut
  have hnew := hring.insert hznew
  rw [hout]
  cases k with
  | nil =>
    refine ⟨_, _, ?_, rep_leaf s.tree z, hnew⟩
    have hnext : s.list.next .head = some .head := hlink.1
    simp [vmaInsertLink, ListHeap.listAdd, hnext, before, after, ListHeap.lastOf, ListHeap.firstOf]
  | cons f k =>
    refine ⟨_, _, ?_, rep_leaf_below hr hz, hnew⟩
    obtain ⟨d, c, y, u⟩ := f
    cases d with
    | left =>
      have hy : ListHeap.firstOf VmaNode.head ((after (⟨.left, c, y, u⟩ :: k)).map .area) =
          .area y := rfl
      have hlt : (s.range z).start < (s.range y).start := hk.2 y (by simp [after])
      rw [hy] at hlink ⊢
      simp [vmaInsertLink, ListHeap.listAddTail, hlt, hlink.2]
    | right =>
      have hy : ListHeap.lastOf VmaNode.head ((before (⟨.right, c, y, u⟩ :: k)).map .area) =
          .area y := by simp [before, ListHeap.lastOf]
      have hle : ¬ (s.range z).start < (s.range y).start :=
        not_lt.mpr (hk.1 y (by simp [before]))
      rw [hy] at hlink ⊢
      simp [vmaInsertLink, ListHeap.listAdd, hle, hlink.1]

theorem vmaInsert_spec (hi : s.Indexed t) (hz : z ∉ t.inorder)
    (hst : ∀ p ∈ t.inorder, (s.range p).start ≠ (s.range z).start)
    (hlt : (s.range z).start < 2 ^ 64) :
    ∃ tree list u, s.vmaInsert z = some { s with tree := tree, list := list } ∧
      ({ s with tree := tree, list := list } : VmaSpace κ).Indexed u ∧
      ∃ us vs, t.inorder = us ++ vs ∧ u.inorder = us ++ z :: vs := by
  have hlen := hi.length_lt
  obtain ⟨k, hkt, hk, hloop⟩ := vmaInsertLoop_spec (s.range z).start loopBound (k := [])
    hi.rep.holds hi.sorted ⟨by simp [before], by simp [after]⟩ (by omega)
  subst hkt
  obtain ⟨tree1, list, hlink, hr1, hring1⟩ := vmaInsertLink_spec hi.rep hi.ring hz hk
  obtain ⟨n, hb⟩ := hi.balanced
  obtain ⟨m, hm, hfits⟩ := fits_of_plug hi.black hb
  have hklen : k.length < loopBound := by
    have := length_le_inorder_plug k (.nil : RbTree Ptr)
    omega
  obtain ⟨tree, u, hfix, hru, hin, hc, hbal⟩ :=
    RbHeap.rbInsertFixup_spec hr1 rfl rfl hfits ⟨rfl, rfl, hm, hm⟩ hklen
  have hu : u.inorder = before k ++ z :: after k := by rw [hin, inorder_plug]; simp
  refine ⟨tree, list, u, ?_, ⟨hru, hc, hbal, by rw [hin]; exact hring1, ?_, ?_⟩,
    before k, after k, by simp [inorder_plug], hu⟩
  · rw [← hi.rep.root] at hloop
    simp only [vmaInsert, parentKey_nil] at hloop ⊢
    simp [hloop, hlink, hfix]
  · have hs := hi.sorted
    rw [inorder_plug, RbTree.inorder_nil, List.append_nil, List.pairwise_append] at hs
    rw [hu, List.pairwise_append, List.pairwise_cons]
    refine ⟨hs.1, ⟨hk.2, hs.2.1⟩, fun a ha b hb => ?_⟩
    rcases List.mem_cons.mp hb with rfl | hb
    · exact lt_of_le_of_ne (hk.1 a ha) (hst a (by simp [inorder_plug, ha]))
    · exact hs.2.2 a ha b hb
  · intro p hp
    rw [hu, List.mem_append, List.mem_cons] at hp
    rcases hp with hp | rfl | hp
    · exact hi.start_lt p (by simp [inorder_plug, hp])
    · exact hlt
    · exact hi.start_lt p (by simp [inorder_plug, hp])

theorem vmaErase_spec (hi : s.Indexed t) (hz : z ∈ t.inorder) :
    ∃ tree list u, s.vmaErase z = some { s with tree := tree, list := list } ∧
      ({ s with tree := tree, list := list } : VmaSpace κ).Indexed u ∧
      u.inorder = t.inorder.erase z := by
  obtain ⟨k, c, l, r, rfl⟩ := exists_plug_of_mem hz
  obtain ⟨n, hb⟩ := hi.balanced
  obtain ⟨tree, u, he, hru, hin, hc, hbal⟩ :=
    RbHeap.rbEraseNode_spec hi.rep hi.black hb hi.length_lt
  have ht : (plug k (.node c l z r)).inorder =
      (before k ++ l.inorder) ++ z :: (r.inorder ++ after k) := by simp [inorder_plug]
  have hu : u.inorder = (before k ++ l.inorder) ++ (r.inorder ++ after k) := by simp [hin]
  have hring := hi.ring
  rw [ht, List.map_append] at hring
  obtain ⟨list, hdel, hring'⟩ := hring.delete
  have hnd := hi.rep.nodup
  rw [ht, List.nodup_append] at hnd
  have hzu : z ∉ before k ++ l.inorder := fun h => hnd.2.2 z h z (by simp) rfl
  have herase : u.inorder = (plug k (.node c l z r)).inorder.erase z := by
    rw [hu, ht, List.erase_append_right _ hzu, List.erase_cons_head]
  have hsub : u.inorder.Sublist (plug k (.node c l z r)).inorder :=
    herase ▸ List.erase_sublist
  refine ⟨tree, list, u, by simp [vmaErase, hdel, he], ⟨hru, hc, hbal, ?_, ?_, ?_⟩, herase⟩
  · rw [hu, List.map_append]
    exact hring'
  · exact hi.sorted.sublist hsub
  · exact fun p hp => hi.start_lt p (hsub.subset hp)

theorem vmaForEachLoop_spec (n : ℕ) {ps : List Ptr}
    (hc : List.IsChain s.list.Link (ps.map VmaNode.area ++ [.head])) (hn : ps.length < n) :
    vmaForEachLoop n s (ListHeap.firstOf .head (ps.map .area)) = some ps := by
  induction ps generalizing n with
  | nil =>
    obtain ⟨n, rfl⟩ := exists_eq_succ_of_ne_zero (ne_of_gt hn)
    rfl
  | cons p ps ih =>
    obtain ⟨n, rfl⟩ := exists_eq_succ_of_ne_zero (ne_of_gt (zero_lt_of_lt hn))
    rw [List.length_cons, succ_lt_succ_iff] at hn
    obtain ⟨zs, hzs, -⟩ := ListHeap.exists_cons_append_head VmaNode.head (ps.map .area)
    rw [List.map_cons, List.cons_append, hzs, List.isChain_cons_cons, ← hzs] at hc
    change vmaForEachLoop (n + 1) s (.area p) = _
    simp only [vmaForEachLoop, hc.1.1, ih n hc.2 hn, bind_eq_bind, bind_some, pure_def]

theorem Indexed.vmaForEach (hi : s.Indexed t) : s.vmaForEach = some t.inorder := by
  have hring : s.list.Ring .head ([] ++ t.inorder.map .area) := hi.ring
  obtain ⟨-, hlink, hc⟩ := ListHeap.isChain_cut.mp hring.chain
  have hlen := hi.length_lt
  have hfirst : s.list.next .head = some (ListHeap.firstOf .head (t.inorder.map .area)) := hlink.1
  simp [VmaSpace.vmaForEach, hfirst, vmaForEachLoop_spec loopBound hc (by omega)]

theorem Indexed.empty (hroot : s.tree.root = none) (hnext : s.list.next .head = some .head)
    (hprev : s.list.prev .head = some .head) : s.Indexed .nil :=
  ⟨⟨hroot, trivial, by simp⟩, rfl, ⟨0, rfl⟩,
    ⟨by simp, by simp [ListHeap.Link, hnext, hprev]⟩, by simp, by simp⟩

theorem Indexed.store (hi : s.Indexed t) (hz : z ∉ t.inorder) (a : VmArea) :
    (s.store z a).Indexed t := by
  have hrange (p : Ptr) (hp : p ∈ t.inorder) : (s.store z a).range p = s.range p :=
    Function.update_of_ne (show p ≠ z from fun e => hz (e ▸ hp)) _ _
  refine ⟨⟨hi.rep.root, hi.rep.holds.congr fun p hp => ?_, hi.rep.nodup⟩, hi.black, hi.balanced,
    hi.ring.congr fun n hn => ?_, ?_, fun p hp => ?_⟩
  · have hpz : p ≠ z := fun e => hz (e ▸ hp)
    simp [VmaSpace.store, hpz]
  · have hne : n ≠ .area z := by
      rintro rfl
      simp [hz] at hn
    simp [VmaSpace.store, hne]
  · refine hi.sorted.imp_of_mem fun hp hq h => ?_
    rwa [hrange _ hp, hrange _ hq]
  · rw [hrange p hp]
    exact hi.start_lt p hp

/-- `vma_insert` with the contents of the new structure, or `vma_erase`. -/
inductive Op where
  | insert (vma : Ptr) (a : VmArea)
  | erase (vma : Ptr)

namespace Op

def exec (s : VmaSpace κ) : Op → Option (VmaSpace κ)
  | insert vma a => (s.store vma a).vmaInsert vma
  | erase vma => s.vmaErase vma

def present (ps : List (Ptr × VmRange)) : Op → List (Ptr × VmRange)
  | insert vma a => (vma, a.range) :: ps
  | erase vma => ps.filter fun q => q.1 != vma

/-- An absent non-empty area apart from the others is inserted, a present one erased. -/
def Admissible (ps : List (Ptr × VmRange)) : Op → Prop
  | insert vma a => (∀ q ∈ ps, q.1 ≠ vma) ∧ a.range.start < a.range.end_ ∧ a.range.end_ < 2 ^ 64 ∧
      ∀ q ∈ ps, a.range.end_ ≤ q.2.start ∨ q.2.end_ ≤ a.range.start
  | erase vma => ∃ q ∈ ps, q.1 = vma

end Op

def run (s : VmaSpace κ) : List Op → Option (VmaSpace κ)
  | [] => some s
  | op :: ops => (op.exec s).bind fun s => run s ops

def presentAfter (ps : List (Ptr × VmRange)) : List Op → List (Ptr × VmRange)
  | [] => ps
  | op :: ops => presentAfter (op.present ps) ops

def AdmissibleFrom (ps : List (Ptr × VmRange)) : List Op → Prop
  | [] => True
  | op :: ops => op.Admissible ps ∧ AdmissibleFrom (op.present ps) ops

structure Tracks (s : VmaSpace κ) (t : RbTree Ptr) (ps : List (Ptr × VmRange)) : Prop where
  indexed : s.Indexed t
  perm : (ps.map Prod.fst).Perm t.inorder
  range : ∀ q ∈ ps, s.range q.1 = q.2 ∧ q.2.start < q.2.end_

section
variable {ps : List (Ptr × VmRange)} (ht : s.Tracks t ps)
include ht

theorem Tracks.mem_inorder {p : Ptr} :
    p ∈ t.inorder ↔ ∃ q ∈ ps, q.1 = p := by
  rw [← ht.perm.mem_iff, List.mem_map]

theorem Tracks.insert {vma : Ptr} {a : VmArea} (ha : (Op.insert vma a).Admissible ps) :
    ∃ s' u, (Op.insert vma a).exec s = some s' ∧ s'.Tracks u ((Op.insert vma a).present ps) := by
  obtain ⟨hfresh, hne, hlt, hdisj⟩ := ha
  have hz : vma ∉ t.inorder := fun h => by
    obtain ⟨q, hq, he⟩ := ht.mem_inorder.mp h
    exact hfresh q hq he
  have hr : (s.store vma a).range vma = a.range := Function.update_self _ _ _
  have hro (p : Ptr) (hp : p ≠ vma) : (s.store vma a).range p = s.range p :=
    Function.update_of_ne hp _ _
  obtain ⟨tree, list, u, he, hi, us, vs, hin, hout⟩ := vmaInsert_spec (ht.indexed.store hz a) hz
    (fun p hp => by
      obtain ⟨q, hq, rfl⟩ := ht.mem_inorder.mp hp
      have h1 := ht.range q hq
      rw [hr, hro _ (hfresh q hq), h1.1]
      have h2 := hdisj q hq
      omega)
    (by rw [hr]; omega)
  refine ⟨_, u, he, hi, ?_, ?_⟩
  · rw [hout]
    exact (List.Perm.cons vma (hin ▸ ht.perm)).trans List.perm_middle.symm
  · intro q hq
    rcases List.mem_cons.mp hq with rfl | hq
    · exact ⟨hr, hne⟩
    · exact ⟨(hro _ (hfresh q hq)).trans (ht.range q hq).1, (ht.range q hq).2⟩

theorem Tracks.erase {vma : Ptr} (ha : (Op.erase vma).Admissible ps) :
    ∃ s' u, (Op.erase vma).exec s = some s' ∧ s'.Tracks u ((Op.erase vma).present ps) := by
  obtain ⟨tree, list, u, he, hi, hout⟩ := vmaErase_spec ht.indexed (ht.mem_inorder.mpr ha)
  refine ⟨_, u, he, hi, ?_, fun q hq => ht.range q (List.mem_of_mem_filter hq)⟩
  have hp := ht.perm.filter fun p => p != vma
  rw [← ht.indexed.rep.nodup.erase_eq_filter, List.filter_map, ← hout] at hp
  exact hp

theorem Tracks.run {ops : List Op} (ha : AdmissibleFrom ps ops) :
    ∃ s' u, s.run ops = some s' ∧ s'.Tracks u (presentAfter ps ops) := by
  induction ops generalizing s t ps with
  | nil => exact ⟨s, t, rfl, ht⟩
  | cons op ops ih =>
    obtain ⟨s1, t1, he, ht1⟩ : ∃ s' u, op.exec s = some s' ∧ s'.Tracks u (op.present ps) := by
      cases op with
      | insert vma a => exact ht.insert ha.1
      | erase vma => exact ht.erase ha.1
    obtain ⟨s2, t2, hr, ht2⟩ := ih ht1 ha.2
    exact ⟨s2, t2, by rw [VmaSpace.run, he, bind_some, hr], ht2⟩

end

/-- From an empty root and list every sequence of calls returns, the areas form a red-black search
tree on `start`, and the list is its in-order sequence. -/
theorem run_redBlack_inorder (s : VmaSpace κ) (hroot : s.tree.root = none)
    (hnext : s.list.next .head = some .head) (hprev : s.list.prev .head = some .head)
    (ops : List Op) (hops : AdmissibleFrom [] ops) :
    ∃ s' t, s.run ops = some s' ∧ s'.tree.Rep t ∧
      ((presentAfter [] ops).map Prod.fst).Perm t.inorder ∧
      t.Ordered (fun p q => (s'.range p).start < (s'.range q).start) ∧
      t.color = .black ∧ t.NoRedRed ∧ (∀ m ∈ t.blackCounts, ∀ n ∈ t.blackCounts, m = n) ∧
      s'.vmaForEach = some t.inorder := by
  have ht : s.Tracks .nil [] := ⟨.empty hroot hnext hprev, .refl _, by simp⟩
  obtain ⟨s', t, hr, ht'⟩ := ht.run hops
  obtain ⟨n, hb⟩ := ht'.indexed.balanced
  refine ⟨s', t, hr, ht'.indexed.rep, ht'.perm, RbTree.ordered_of_pairwise ht'.indexed.sorted,
    ht'.indexed.black, hb.noRedRed, fun m hm m' hm' => ?_, ht'.indexed.vmaForEach⟩
  rw [hb.blackCounts_eq m hm, hb.blackCounts_eq m' hm']

def empty (k : κ) : VmaSpace κ where
  range _ := ⟨0, 0, 0, 0, none⟩
  tree := ⟨none, fun _ => ⟨none, none, none, .red⟩⟩
  list := ⟨fun _ => some .head, fun _ => some .head⟩
  vnRef _ := 0
  kmem := k

/-- An anonymous area after `vma_alloc`. -/
def anonArea (vma : Ptr) (start end_ : ℕ) : VmArea :=
  ⟨⟨start, end_, 0, 0, none⟩, ⟨none, none, none, .red⟩, some (.area vma), some (.area vma)⟩

theorem run_redBlack_inorder_three :
    let ops := [Op.insert 1 (anonArea 1 0x1000 0x2000), .insert 2 (anonArea 2 0x4000 0x5000),
      .erase 1]
    AdmissibleFrom [] ops ∧ ∃ s' t, (empty ()).run ops = some s' ∧ s'.tree.Rep t ∧
      ((presentAfter [] ops).map Prod.fst).Perm t.inorder ∧
      t.Ordered (fun p q => (s'.range p).start < (s'.range q).start) ∧
      t.color = .black ∧ t.NoRedRed ∧ (∀ m ∈ t.blackCounts, ∀ n ∈ t.blackCounts, m = n) ∧
      s'.vmaForEach = some t.inorder := by
  intro ops
  have hops : AdmissibleFrom [] ops := by
    simp [ops, AdmissibleFrom, Op.Admissible, Op.present, anonArea]
  exact ⟨hops, run_redBlack_inorder (empty ()) rfl rfl rfl ops hops⟩

end VmaSpace
end Doppio
