import Doppio.Vma.AddressMap
import Doppio.Vma.InsertErase

/-! Lookup, `vma_split` and `vma_remove_range` on the ordered list of ranges. -/
namespace Doppio
open RedBlack List Nat Option Function
namespace VmaSpace
variable {κ : Type} {K : Kmem κ} {s : VmaSpace κ} {t : RbTree Ptr}

theorem layout_node {c : Color} {l r : RbTree Ptr} {v : Ptr}
    (hl : Layout ((RbTree.node c l v r).inorder.map s.range)) :
    Layout (l.inorder.map s.range) ∧ Layout (r.inorder.map s.range) ∧
      (s.range v).start < (s.range v).end_ ∧
      ∀ u ∈ l.inorder, (s.range u).end_ ≤ (s.range v).start := by
  rw [RbTree.inorder_node, map_append] at hl
  obtain ⟨h, hne, -, hu, -⟩ := layout_append_cons.mp hl
  exact ⟨h.sublist (sublist_append_left _ _), h.sublist (sublist_append_right _ _), hne,
    fun u hu' => hu _ (mem_map_of_mem hu')⟩

theorem vmaFindFirstLoop_spec (addr n : ℕ) {p candidate : Option Ptr} (hh : s.tree.Holds p t)
    (hl : Layout (t.inorder.map s.range)) (hn : t.inorder.length < n) :
    vmaFindFirstLoop n s addr candidate t.top =
      some ((t.inorder.find? fun v => addr < (s.range v).end_).or candidate) := by
  induction t generalizing n p candidate with
  | nil =>
    obtain ⟨n, rfl⟩ := exists_eq_succ_of_ne_zero (Nat.ne_of_gt hn)
    rfl
  | node c l v r ihl ihr =>
    obtain ⟨hv, hhl, hhr⟩ := hh
    obtain ⟨hll, hlr, hne, hlv⟩ := layout_node hl
    simp only [RbTree.inorder_node, length_append, length_cons] at hn
    obtain ⟨n, rfl⟩ := exists_eq_succ_of_ne_zero (by omega : n ≠ 0)
    simp only [RbTree.top_node, RbTree.inorder_node, find?_append, vmaFindFirstLoop, hv]
    -- behind the first test no area on the left ends after `addr`
    have hleft (h : (s.range v).start ≤ addr) :
        l.inorder.find? (fun u => addr < (s.range u).end_) = none :=
      find?_eq_none.mpr fun u hu => by simpa using (hlv u hu).trans h
    split_ifs with h1 h2
    · rw [ihl n hhl hll (by omega), find?_cons_of_pos (by simpa using h1.trans hne)]
      simp
    · rw [ihr n hhr hlr (by omega), hleft (by omega), find?_cons_of_neg (by simpa using h2)]
      rfl
    · rw [hleft (by omega), find?_cons_of_pos (by simpa using not_le.mp h2)]
      rfl

/-- The areas `ps` in order: indexed, apart, in memory in use. -/
structure Holding (K : Kmem κ) (s : VmaSpace κ) (ps : List Ptr) : Prop where
  indexed : ∃ t, s.Indexed t ∧ t.inorder = ps
  layout : Layout (ps.map s.range)
  live : ∀ p ∈ ps, K.Live s.kmem p

variable {ps : List Ptr}

theorem Holding.nodup (hs : s.Holding K ps) : ps.Nodup := by
  obtain ⟨t, hi, rfl⟩ := hs.indexed
  exact hi.rep.nodup

variable {p : Ptr}

theorem Holding.around {us vs : List Ptr} (hs : s.Holding K (us ++ p :: vs)) :
    (s.range p).start < (s.range p).end_ ∧ ∀ w ∈ vs, (s.range p).end_ ≤ (s.range w).start := by
  have hl := hs.layout
  rw [map_append] at hl
  obtain ⟨-, hne, -, -, hw⟩ := layout_append_cons.mp hl
  exact ⟨hne, fun w h => hw _ (mem_map_of_mem h)⟩

theorem Holding.le_start {us vs : List Ptr} {a : ℕ} (hs : s.Holding K (us ++ p :: vs))
    (ha : a ≤ (s.range p).start) : ∀ v ∈ p :: vs, a ≤ (s.range v).start := by
  intro v hv
  obtain ⟨hne, hpv⟩ := hs.around
  rcases mem_cons.mp hv with rfl | hv
  · exact ha
  · exact (ha.trans hne.le).trans (hpv v hv)

theorem Indexed.vmaFindFirst (hi : s.Indexed t) (hl : Layout (t.inorder.map s.range)) (addr : ℕ) :
    s.vmaFindFirst addr = some (t.inorder.find? fun v => addr < (s.range v).end_) := by
  have hlen := hi.length_lt
  rw [VmaSpace.vmaFindFirst, hi.rep.root,
    vmaFindFirstLoop_spec addr loopBound hi.rep.holds hl (by omega), or_none]

theorem Holding.vmaFindFirst (hs : s.Holding K ps) (addr : ℕ) :
    s.vmaFindFirst addr = some (ps.find? fun v => addr < (s.range v).end_) := by
  obtain ⟨t, hi, rfl⟩ := hs.indexed
  exact hi.vmaFindFirst hs.layout addr

theorem Indexed.congr {s' : VmaSpace κ} (hi : s.Indexed t) (ht : s'.tree = s.tree)
    (hl : s'.list = s.list) (hr : ∀ p ∈ t.inorder, (s'.range p).start = (s.range p).start) :
    s'.Indexed t := by
  refine ⟨ht ▸ hi.rep, hi.black, hi.balanced, hl ▸ hi.ring, ?_, fun p hp => ?_⟩
  · refine hi.sorted.imp_of_mem fun hp hq h => ?_
    rwa [hr _ hp, hr _ hq]
  · rw [hr p hp]
    exact hi.start_lt p hp

theorem vmaAlloc_spec (hs : s.Holding K ps) (hK : ∀ k, (K.kmalloc k).isSome) (r : VmRange) :
    ∃ q s', s.vmaAlloc K r = (s', some q) ∧ q ∉ ps ∧ s'.Holding K ps ∧ K.Live s'.kmem q ∧
      s'.range = Function.update s.range q r := by
  obtain ⟨⟨q, kmem⟩, hq⟩ := isSome_iff_exists.mp (hK s.kmem)
  obtain ⟨t, hi, rfl⟩ := hs.indexed
  have hqt : q ∉ t.inorder := fun h => K.not_live hq (hs.live q h)
  let s1 : VmaSpace κ := vref { s with kmem := kmem } r.vn
  have hs1 : s1.tree = s.tree ∧ s1.list = s.list ∧ s1.range = s.range ∧ s1.kmem = kmem := by
    cases hv : r.vn <;> simp [s1, hv, vref]
  have hi1 : s1.Indexed t := hi.congr hs1.1 hs1.2.1 fun p _ => by rw [hs1.2.2.1]
  have hr : (s1.store q ⟨r, ⟨none, none, none, .red⟩, some (.area q), some (.area q)⟩).range =
      update s.range q r := by rw [VmaSpace.store, hs1.2.2.1]
  refine ⟨q, s1.store q ⟨r, ⟨none, none, none, .red⟩, some (.area q), some (.area q)⟩, ?_, hqt,
    ⟨⟨t, hi1.store hqt _, rfl⟩, ?_, fun p hp => ?_⟩, ?_, hr⟩
  · simp only [vmaAlloc, hq, s1]
  · rw [hr, map_congr_left fun p hp =>
      update_of_ne (show p ≠ q from fun e => hqt (e ▸ hp)) _ _]
    exact hs.layout
  · rw [VmaSpace.store, hs1.2.2.2]
    exact K.live_kmalloc hq (hs.live p hp)
  · rw [VmaSpace.store, hs1.2.2.2]
    exact K.live_self hq

theorem Indexed.inorder_eq (hi : s.Indexed t) (hp : t.inorder.Perm ps)
    (hl : Layout (ps.map s.range)) : t.inorder = ps := by
  refine hp.eq_of_pairwise (fun a b _ _ h1 h2 => absurd h1 h2.asymm) hi.sorted ?_
  refine (pairwise_map.mp hl.disjoint).imp_of_mem fun ha _ h => ?_
  exact (hl.nonempty _ (mem_map_of_mem ha)).trans_le h

theorem vmaSplit_outside {addr : ℕ} (h : addr ≤ (s.range p).start ∨ (s.range p).end_ ≤ addr) :
    s.vmaSplit K p addr = some (s, some p) := if_pos h

theorem vmaSplit_spec {us vs : List Ptr} (addr : ℕ) (hs : s.Holding K (us ++ p :: vs))
    (hK : ∀ k, (K.kmalloc k).isSome) (h1 : (s.range p).start < addr)
    (h2 : addr < (s.range p).end_) :
    ∃ q s', s.vmaSplit K p addr = some (s', some q) ∧ s'.Holding K (us ++ p :: q :: vs) ∧
      s'.range p = (s.range p).headPart addr ∧ s'.range q = (s.range p).tailPart addr ∧
      ∀ x ∈ us ++ vs, s'.range x = s.range x := by
  obtain ⟨q, s1, halloc, hq, hs1, hlive, hr1⟩ :=
    vmaAlloc_spec hs hK { s.range p with start := addr }
  have hnd := hs.nodup
  rw [nodup_middle, nodup_cons] at hnd
  have hqp : q ≠ p := fun e => hq (by simp [e])
  let s2 := s1.setFileOffset q
    ((s.range p).fileOffset + BitVec.ofNat 64 (addr - (s.range p).start))
  let s3 := s2.setEnd p addr
  have hr3 (x : Ptr) : s3.range x = if x = p then (s.range p).headPart addr
      else if x = q then (s.range p).tailPart addr else s.range x := by
    simp only [s3, s2, setEnd, setFileOffset, setRange, hr1, update_apply]
    split_ifs with h3 h4 <;> first | rfl | skip
    exact absurd h4.symm hqp
  have hp3 : s3.range p = (s.range p).headPart addr := by rw [hr3, if_pos rfl]
  have hq3 : s3.range q = (s.range p).tailPart addr := by rw [hr3, if_neg hqp, if_pos rfl]
  have ho3 (x : Ptr) (hx : x ∈ us ++ vs) : s3.range x = s.range x := by
    rw [hr3, if_neg (show x ≠ p from fun e => hnd.1 (e ▸ hx)), if_neg]
    rintro rfl
    exact hq (by simp only [mem_append] at hx ⊢; tauto)
  have hlay : Layout ((us ++ p :: q :: vs).map s3.range) := by
    have hl := hs.layout
    rw [map_append] at hl
    have := hl.split h1 h2
    rwa [map_append, map_cons, map_cons, hp3, hq3,
      map_congr_left fun x hx => ho3 x (mem_append_left _ hx),
      map_congr_left fun x hx => ho3 x (mem_append_right _ hx)]
  obtain ⟨t, hi, ht⟩ := hs1.indexed
  have hr1p (x : Ptr) (hx : x ∈ t.inorder) : s1.range x = s.range x := by
    rw [hr1]
    exact update_of_ne (show x ≠ q from fun e => hq (e ▸ ht ▸ hx)) _ _
  have hmem (x : Ptr) (hx : x ∈ t.inorder) : x = p ∨ x ∈ us ++ vs := by
    rw [ht, mem_append, mem_cons] at hx
    rw [mem_append]
    tauto
  have hi3 : s3.Indexed t := by
    refine hi.congr rfl rfl fun x hx => ?_
    rw [hr1p x hx]
    rcases hmem x hx with rfl | hx
    · rw [hp3]
      rfl
    · rw [ho3 x hx]
  have hstarts : (us ++ p :: q :: vs).Pairwise fun x y => (s3.range x).start ≠ (s3.range y).start :=
    (pairwise_map.mp hlay.disjoint).imp_of_mem fun hx _ h =>
      ((hlay.nonempty _ (mem_map_of_mem hx)).trans_le h).ne
  have hmid : (us ++ p :: q :: vs).Perm (q :: (us ++ p :: vs)) := by
    have : ((us ++ [p]) ++ q :: vs).Perm (q :: ((us ++ [p]) ++ vs)) := perm_middle
    simpa using this
  obtain ⟨tree, list, u, hins, hiu, us', vs', hsplit, hu⟩ := vmaInsert_spec hi3
    (fun h => hq (ht ▸ h))
    (fun x hx => by
      have hperm : (us ++ p :: q :: vs).Perm (q :: t.inorder) := by
        rw [ht]
        exact hmid
      have := (hstarts.perm hperm fun h => h.symm)
      exact ((pairwise_cons.mp this).1 x hx).symm)
    (by rw [hq3]; exact h2.trans (hs.layout.end_lt _ (mem_map_of_mem (by simp))))
  have huin : u.inorder = us ++ p :: q :: vs := by
    refine hiu.inorder_eq ?_ hlay
    rw [hu]
    refine perm_middle.trans ?_
    rw [← hsplit, ht]
    exact hmid.symm
  refine ⟨q, _, ?_, ⟨⟨u, hiu, huin⟩, hlay, fun x hx => ?_⟩, hp3, hq3, ho3⟩
  · have hc : ¬ (addr ≤ (s.range p).start ∨ (s.range p).end_ ≤ addr) := by omega
    simp only [vmaSplit, if_neg hc, halloc]
    rw [hins]
    rfl
  · by_cases hxq : x = q
    · rw [hxq]
      exact hlive
    · refine hs1.live x ?_
      simp only [mem_append, mem_cons] at hx ⊢
      tauto

theorem vmaErase_vmaFree_spec {us vs : List Ptr} (hs : s.Holding K (us ++ p :: vs)) :
    ∃ s', s.vmaErase p = some s' ∧ (s'.vmaFree K p).Holding K (us ++ vs) ∧
      (s'.vmaFree K p).range = s.range := by
  obtain ⟨t, hi, ht⟩ := hs.indexed
  obtain ⟨tree, list, u, he, hiu, hu⟩ := vmaErase_spec (z := p) hi (by simp [ht])
  have hnd := hs.nodup
  rw [nodup_append, nodup_cons] at hnd
  have hpu : p ∉ us := fun h => hnd.2.2 p h p (by simp) rfl
  rw [ht, erase_append_right _ hpu, erase_cons_head] at hu
  have hsub : (us ++ vs).Sublist (us ++ p :: vs) :=
    Sublist.append_left (sublist_cons_self _ _) _
  have hfree (s1 : VmaSpace κ) : (s1.vmaFree K p).tree = s1.tree ∧
      (s1.vmaFree K p).list = s1.list ∧ (s1.vmaFree K p).range = s1.range ∧
      (s1.vmaFree K p).kmem = K.kfree s1.kmem p := by
    cases hv : (s1.range p).vn <;> simp [vmaFree, hv, vput]
  obtain ⟨h1, h2, h3, h4⟩ := hfree { s with tree := tree, list := list }
  refine ⟨_, he, ⟨⟨u, hiu.congr h1 h2 fun x _ => by rw [h3], hu⟩, ?_, fun x hx => ?_⟩, h3⟩
  · rw [h3]
    exact hs.layout.sublist (hsub.map _)
  · rw [h4]
    refine K.live_kfree ?_ (hs.live x (hsub.subset hx))
    rintro rfl
    rcases mem_append.mp hx with hx | hx
    · exact hpu hx
    · exact hnd.2.1.1 hx

/-- The areas `ps'` in `s'` are what `cut` leaves of the areas `ps` in `s`. -/
def CutTo (K : Kmem κ) (start end_ : ℕ) (s : VmaSpace κ) (ps : List Ptr) (s' : VmaSpace κ) : Prop :=
  ∃ ps', s'.Holding K ps' ∧ ps'.map s'.range = (ps.map s.range).flatMap (cut start end_)

variable {start : ℕ}

theorem vmaRemoveRangeLoop_stop {us vs : List Ptr} (end_ n : ℕ)
    (hs : s.Holding K (us ++ vs)) (hu : ∀ u ∈ us, (s.range u).end_ ≤ start)
    (hv : ∀ v ∈ vs, end_ ≤ (s.range v).start) :
    ∃ s', vmaRemoveRangeLoop K (n + 1) s start end_ = some s' ∧
      CutTo K start end_ s (us ++ vs) s' := by
  refine ⟨s, ?_, us ++ vs, hs, ?_⟩
  · have hfind := hs.vmaFindFirst start
    rw [find?_append, find?_eq_none.mpr fun u h => by simpa using hu u h] at hfind
    rw [vmaRemoveRangeLoop, hfind]
    cases hv' : vs.find? fun v => start < (s.range v).end_ with
    | none => rfl
    | some v => simp [hv v (mem_of_find?_eq_some hv')]
  · refine (flatMap_cut_outside fun v h => ?_).symm
    obtain ⟨p, hp, rfl⟩ := mem_map.mp h
    rcases mem_append.mp hp with hp | hp
    · exact .inl (hu p hp)
    · exact .inr (hv p hp)

theorem vmaRemoveRangeLoop_turn {us vs : List Ptr} {q : Ptr} {end_ n : ℕ}
    {s1 s2 : VmaSpace κ} (hs : s.Holding K (us ++ p :: vs))
    (hu : ∀ u ∈ us, (s.range u).end_ ≤ start) (hp : start < (s.range p).end_)
    (hend : (s.range p).start < end_) (hstep : s.vmaRemoveStep K p start end_ = some (true, s1, some q))
    (herase : s1.vmaErase q = some s2) :
    vmaRemoveRangeLoop K (n + 1) s start end_ =
      vmaRemoveRangeLoop K n (s2.vmaFree K q) start end_ := by
  have hfind := hs.vmaFindFirst start
  rw [find?_append, find?_eq_none.mpr fun u h => by simpa using hu u h,
    find?_cons_of_pos (by simpa using hp)] at hfind
  simp [vmaRemoveRangeLoop, hfind, not_le.mpr hend, hstep, herase]

theorem CutTo.replace {end_ : ℕ} {us vs : List Ptr} {s1 s' : VmaSpace κ}
    (qs : List Ptr) (h : CutTo K start end_ s1 (us ++ (qs ++ vs)) s')
    (ho : ∀ x ∈ us ++ vs, s1.range x = s.range x)
    (hq : (qs.map s1.range).flatMap (cut start end_) = cut start end_ (s.range p)) :
    CutTo K start end_ s (us ++ p :: vs) s' := by
  obtain ⟨ps', hs', hm⟩ := h
  refine ⟨ps', hs', hm.trans ?_⟩
  rw [map_append, map_append, map_append, map_congr_left fun x hx => ho x (mem_append_left _ hx),
    map_congr_left fun x hx => ho x (mem_append_right _ hx)]
  simp [hq]

theorem vmaRemoveRangeLoop_from {us vs : List Ptr} (end_ n : ℕ)
    (hK : ∀ k, (K.kmalloc k).isSome) (hs : s.Holding K (us ++ vs))
    (hu : ∀ u ∈ us, (s.range u).end_ ≤ start) (hv : ∀ v ∈ vs, start ≤ (s.range v).start)
    (hn : vs.length + 1 ≤ n) :
    ∃ s', vmaRemoveRangeLoop K n s start end_ = some s' ∧ CutTo K start end_ s (us ++ vs) s' := by
  induction vs generalizing s n with
  | nil =>
    obtain ⟨n, rfl⟩ := exists_eq_succ_of_ne_zero (Nat.ne_of_gt hn)
    exact vmaRemoveRangeLoop_stop _ _ hs hu (by simp)
  | cons p vs ih =>
    obtain ⟨n, rfl⟩ := exists_eq_succ_of_ne_zero (by omega : n ≠ 0)
    rw [length_cons] at hn
    obtain ⟨hne, hpv⟩ := hs.around
    have hsp : start ≤ (s.range p).start := hv p (by simp)
    by_cases hstop : end_ ≤ (s.range p).start
    · exact vmaRemoveRangeLoop_stop _ _ hs hu (hs.le_start hstop)
    by_cases htail : end_ < (s.range p).end_
    · -- the tail behind `end_` is split off, and the loop stops in front of it
      obtain ⟨q, s1, hsplit, hs1, hp1, hq1, ho1⟩ := vmaSplit_spec end_ hs hK (by omega) htail
      obtain ⟨s2, herase, hs2, hr2⟩ := vmaErase_vmaFree_spec hs1
      obtain ⟨n, rfl⟩ := exists_eq_succ_of_ne_zero (by omega : n ≠ 0)
      have hstep : s.vmaRemoveStep K p start end_ = some (true, s1, some p) := by
        simp [vmaRemoveStep, not_lt.mpr hsp, htail, hsplit]
      rw [vmaRemoveRangeLoop_turn hs hu (by omega) (by omega) hstep herase]
      obtain ⟨s', hloop, hcut⟩ := vmaRemoveRangeLoop_stop end_ n hs2
        (fun u hu' => by rw [hr2, ho1 u (by simp [hu'])]; exact hu u hu')
        (fun v hv' => by
          rw [hr2]
          rcases mem_cons.mp hv' with rfl | hv'
          · rw [hq1]
            exact le_rfl
          · rw [ho1 v (by simp [hv'])]
            exact htail.le.trans (hpv v hv'))
      refine ⟨s', hloop, hcut.replace [q] (fun x hx => by rw [hr2, ho1 x hx]) ?_⟩
      rw [hr2, map_singleton, hq1, flatMap_singleton, cut_tailPart, cut,
        if_neg (by omega), if_neg (by omega), if_pos htail]
    · obtain ⟨s2, herase, hs2, hr2⟩ := vmaErase_vmaFree_spec hs
      have hstep : s.vmaRemoveStep K p start end_ = some (true, s, some p) := by
        simp [vmaRemoveStep, not_lt.mpr hsp, htail]
      rw [vmaRemoveRangeLoop_turn hs hu (by omega) (by omega) hstep herase]
      obtain ⟨s', hloop, hcut⟩ := ih n hs2 (fun u h => by rw [hr2]; exact hu u h)
        (fun v h => by rw [hr2]; exact hv v (by simp [h])) (by omega)
      refine ⟨s', hloop, hcut.replace [] (fun x _ => by rw [hr2]) ?_⟩
      rw [cut, if_neg (by omega), if_neg (by omega), if_neg htail]
      rfl

theorem vmaRemoveRange_spec (hK : ∀ k, (K.kmalloc k).isSome)
    (hs : s.Holding K ps) (start end_ : ℕ) :
    ∃ s', s.vmaRemoveRange K start end_ = some s' ∧ CutTo K start end_ s ps s' := by
  have hlen : ps.length + 2 ≤ loopBound := by
    obtain ⟨t, hi, rfl⟩ := hs.indexed
    exact hi.length_lt
  obtain ⟨n, hn⟩ : ∃ n, loopBound = n + 2 := ⟨loopBound - 2, by omega⟩
  rw [vmaRemoveRange, hn]
  -- the areas up to the first one that ends after `start`
  obtain ⟨us, vs, rfl, hu, hv⟩ : ∃ us vs, ps = us ++ vs ∧ (∀ u ∈ us, (s.range u).end_ ≤ start) ∧
      ∀ v ∈ vs.head?, start < (s.range v).end_ := by
    refine ⟨ps.takeWhile fun u => (s.range u).end_ ≤ start,
      ps.dropWhile fun u => (s.range u).end_ ≤ start, by simp, fun u hu => ?_, fun v hv => ?_⟩
    · simpa using all_eq_true.mp all_takeWhile u hu
    · have := head?_dropWhile_not (fun u => decide ((s.range u).end_ ≤ start)) ps
      rw [mem_def.mp hv] at this
      simpa using this
  cases vs with
  | nil => exact vmaRemoveRangeLoop_stop _ _ hs hu (by simp)
  | cons p vs =>
    have hp : start < (s.range p).end_ := hv p rfl
    obtain ⟨-, hpv⟩ := hs.around
    simp only [length_append, length_cons] at hlen
    by_cases hsp : start ≤ (s.range p).start
    · exact vmaRemoveRangeLoop_from end_ (n + 2) hK hs hu (hs.le_start hsp) (by simp; omega)
    by_cases hstop : end_ ≤ (s.range p).start
    · exact vmaRemoveRangeLoop_stop _ _ hs hu (hs.le_start hstop)
    -- `p` reaches over `start`: its front stays, whatever happens to the rest
    obtain ⟨q, s1, hsplit, hs1, hp1, hq1, ho1⟩ := vmaSplit_spec start hs hK (not_le.mp hsp) hp
    have hcutp : cut start end_ (s.range p) = [(s.range p).headPart start] := by
      rw [cut, if_neg (by omega), if_pos (by omega)]
    have hu1 (u : Ptr) (hu' : u ∈ us ++ [p]) : (s1.range u).end_ ≤ start := by
      rcases mem_append.mp hu' with hu' | hu'
      · rw [ho1 u (by simp [hu'])]
        exact hu u hu'
      · rw [mem_singleton.mp hu', hp1]
        exact le_rfl
    have hv1 (v : Ptr) (hv' : v ∈ vs) : start ≤ (s1.range v).start := by
      rw [ho1 v (by simp [hv'])]
      have := hpv v hv'
      omega
    have hs1' : s1.Holding K ((us ++ [p]) ++ q :: vs) := by simpa using hs1
    by_cases hpunch : start < end_ ∧ end_ < (s.range p).end_
    · obtain ⟨w, s2, hsplit2, hs2, hq2, -, ho2⟩ := vmaSplit_spec end_ hs1' hK
        (by simpa [hq1] using hpunch.1) (by simpa [hq1] using hpunch.2)
      have hs2' : s2.Holding K ((us ++ [p, q]) ++ w :: vs) := by simpa using hs2
      obtain ⟨s3, herase, hs3, hr3⟩ := vmaErase_vmaFree_spec hs2'
      have hstep : s.vmaRemoveStep K p start end_ = some (true, s2, some w) := by
        simp [vmaRemoveStep, not_le.mp hsp, hsplit, hq1, hpunch.2, hsplit2]
      rw [vmaRemoveRangeLoop_turn hs hu hp (not_le.mp hstop) hstep herase]
      have hs3' : (s3.vmaFree K w).Holding K ((us ++ [p]) ++ q :: vs) := by simpa using hs3
      obtain ⟨s', hloop, hcut⟩ := vmaRemoveRangeLoop_from end_ (n + 1) hK hs3'
        (fun u hu' => by
          rw [hr3, ho2 u (mem_append_left _ hu')]
          exact hu1 u hu')
        (fun v hv' => by
          rw [hr3]
          rcases mem_cons.mp hv' with rfl | hv'
          · rw [hq2, hq1]
            exact le_rfl
          · rw [ho2 v (mem_append_right _ hv')]
            exact hv1 v hv')
        (by simp; omega)
      refine ⟨s', hloop, CutTo.replace [p, q] (by simpa using hcut)
        (fun x hx => ?_) ?_⟩
      · rw [hr3, ho2 x (by simp only [mem_append] at hx ⊢; tauto), ho1 x hx]
      · have hcutq : cut start end_ (((s.range p).tailPart start).headPart end_) = [] := by
          simp [cut, hpunch.1]
        simp [hr3, hq2, hq1, hcutq, ho2 p (by simp), hp1, cut_headPart, hcutp]
    · -- the second split, if there is one, returns the rest of `p` as it is
      have hstep : s.vmaRemoveStep K p start end_ = some (true, s1, some q) := by
        by_cases htail : end_ < (s.range p).end_
        · have hsplit2 : s1.vmaSplit K q end_ = some (s1, some q) :=
            vmaSplit_outside (.inl (by rw [hq1, VmRange.tailPart_start]; omega))
          simp [vmaRemoveStep, not_le.mp hsp, hsplit, hsplit2]
        · simp [vmaRemoveStep, not_le.mp hsp, hsplit, hq1, htail]
      obtain ⟨s2, herase, hs2, hr2⟩ := vmaErase_vmaFree_spec hs1'
      rw [vmaRemoveRangeLoop_turn hs hu hp (not_le.mp hstop) hstep herase]
      obtain ⟨s', hloop, hcut⟩ := vmaRemoveRangeLoop_from end_ (n + 1) hK hs2
        (fun u hu' => by rw [hr2]; exact hu1 u hu') (fun v hv' => by rw [hr2]; exact hv1 v hv')
        (by omega)
      rw [append_assoc] at hcut
      refine ⟨s', hloop, hcut.replace [p] (fun x hx => by rw [hr2, ho1 x hx]) ?_⟩
      simp [hr2, hp1, cut_headPart, hcutp]

def bumpKmem : Kmem ℕ where
  kmalloc k := some (k, k + 1)
  kfree k _ := k
  Live k p := p < k
  not_live h := by cases h; exact lt_irrefl _
  live_self h := by cases h; exact lt_succ_self _
  live_kmalloc h hq := by cases h; exact lt_succ_of_lt hq
  live_kfree _ h := h

def single (r : VmRange) : VmaSpace ℕ where
  range _ := r
  tree := ⟨some 0, fun _ => ⟨none, none, none, .black⟩⟩
  list := ⟨fun n => some (if n = .head then .area 0 else .head),
    fun n => some (if n = .head then .area 0 else .head)⟩
  vnRef _ := 1
  kmem := 1

def singleTree : RbTree Ptr := .node .black .nil 0 .nil

theorem single_indexed (r : VmRange) (h : r.start < 2 ^ 64) : (single r).Indexed singleTree := by
  refine ⟨⟨rfl, ⟨rfl, trivial, trivial⟩, by simp [singleTree]⟩, rfl, ⟨1, ?_⟩,
    ⟨by simp [singleTree], ?_⟩, by simp [singleTree], by simpa [singleTree]⟩
  · exact (RbTree.balanced_mk_black (d := .left)).mpr (by simp)
  · simp [single, singleTree, ListHeap.Link]

theorem single_layout (r : VmRange) (h : r.start < r.end_) (hlt : r.end_ < 2 ^ 64) :
    Layout (singleTree.inorder.map (single r).range) :=
  ⟨by simp [singleTree], by simpa [singleTree, single], by simpa [singleTree, single]⟩

theorem vmaFindLoop_eq (addr n : ℕ) (candidate : Option Ptr) {p : Option Ptr}
    (hc : ∀ u ∈ candidate, addr < (s.range u).start) :
    vmaFindLoop n s addr p = (vmaFindFirstLoop n s addr candidate p).map
      (Option.filter fun u => (s.range u).start ≤ addr) := by
  induction n generalizing candidate p with
  | zero => rfl
  | succ n ih =>
    cases p with
    | none => cases candidate <;> simp_all [vmaFindLoop, vmaFindFirstLoop, Option.filter_some]
    | some v =>
      simp only [vmaFindLoop, vmaFindFirstLoop]
      split_ifs with h1 h2
      · exact ih (some v) (by simpa using h1)
      · exact ih candidate hc
      · simp [Option.filter_some, not_lt.mp h1]

section Find
variable {a : ℕ} {v : Ptr}

/-- The areas end in order: the first one to end after `a` has the smallest such end. -/
theorem find?_end_iff (hl : Layout (ps.map s.range)) :
    ps.find? (fun v => a < (s.range v).end_) = some v ↔
      v ∈ ps ∧ a < (s.range v).end_ ∧ ∀ w ∈ ps, a < (s.range w).end_ →
        (s.range v).end_ ≤ (s.range w).end_ := by
  have hlater {u w : Ptr} (hw : w ∈ ps) (h : (s.range u).end_ ≤ (s.range w).start) :
      (s.range u).end_ < (s.range w).end_ := h.trans_lt (hl.nonempty _ (mem_map_of_mem hw))
  rw [find?_eq_some_iff_append]
  constructor
  · rintro ⟨hv, us, vs, rfl, hus⟩
    refine ⟨by simp, by simpa using hv, fun w hw haw => ?_⟩
    have hdis := (pairwise_append.mp (pairwise_map.mp hl.disjoint)).2.1
    rcases mem_append.mp hw with hu | hu
    · exact absurd haw (by simpa using hus w hu)
    rcases mem_cons.mp hu with rfl | hu
    · exact le_rfl
    · exact (hlater hw ((pairwise_cons.mp hdis).1 w hu)).le
  · rintro ⟨hv, hav, hmin⟩
    obtain ⟨us, vs, rfl⟩ := append_of_mem hv
    refine ⟨by simpa using hav, us, vs, rfl, fun u hu => ?_⟩
    have hle := (pairwise_append.mp (pairwise_map.mp hl.disjoint)).2.2 u hu v mem_cons_self
    have hlt := hlater hv hle
    simpa using not_lt.mp fun hau => (hmin u (mem_append_left _ hu) hau).not_gt hlt

theorem end_le_of_mem (hl : Layout (ps.map s.range)) (hv : v ∈ ps) (hva : (s.range v).start ≤ a)
    {w : Ptr} (hw : w ∈ ps) (haw : a < (s.range w).end_) :
    (s.range v).end_ ≤ (s.range w).end_ := by
  obtain ⟨us, vs, rfl⟩ := append_of_mem hv
  have hdis := pairwise_append.mp (pairwise_map.mp hl.disjoint)
  rcases mem_append.mp hw with hu | hu
  · have := hdis.2.2 w hu v mem_cons_self
    omega
  rcases mem_cons.mp hu with rfl | hu
  · exact le_rfl
  · have := hl.nonempty _ (mem_map_of_mem hw)
    have := (pairwise_cons.mp hdis.2.1).1 w hu
    omega

/-- `vma_find` gives the one area that holds `a`, `vma_find_first` the area with the smallest end
behind `a`, as a scan of the list does. -/
theorem vmaFind_vmaFindFirst (hi : s.Indexed t) (hl : Layout (t.inorder.map s.range)) (a : ℕ) :
    ∃ ps found first, s.vmaForEach = some ps ∧ s.vmaFind a = some found ∧
      s.vmaFindFirst a = some first ∧
      first = ps.find? (fun v => a < (s.range v).end_) ∧
      (∀ v, found = some v ↔ v ∈ ps ∧ (s.range v).start ≤ a ∧ a < (s.range v).end_) ∧
      ∀ v, first = some v ↔ v ∈ ps ∧ a < (s.range v).end_ ∧
        ∀ w ∈ ps, a < (s.range w).end_ → (s.range v).end_ ≤ (s.range w).end_ := by
  have hfirst := hi.vmaFindFirst hl a
  have hfind : s.vmaFind a = _ := vmaFindLoop_eq a loopBound none (by simp)
  rw [← VmaSpace.vmaFindFirst, hfirst] at hfind
  refine ⟨_, _, _, hi.vmaForEach, hfind, hfirst, rfl, fun v => ?_, fun v => find?_end_iff hl⟩
  rw [filter_eq_some_iff, find?_end_iff hl, decide_eq_true_eq]
  constructor
  · rintro ⟨⟨hv, hav, -⟩, hva⟩
    exact ⟨hv, hva, hav⟩
  · rintro ⟨hv, hva, hav⟩
    exact ⟨⟨hv, hav, fun w hw => end_le_of_mem hl hv hva hw⟩, hva⟩

theorem vmaFind_vmaFindFirst_split : ∃ s q,
    (single ⟨0x1000, 0x5000, 3, 0, none⟩).vmaSplit bumpKmem 0 0x3000 = some (s, some q) ∧
      s.vmaFind 0x4000 = some (some q) := by
  have hs : (single ⟨0x1000, 0x5000, 3, 0, none⟩).Holding bumpKmem ([] ++ 0 :: []) :=
    ⟨⟨singleTree, single_indexed _ (by norm_num), rfl⟩,
      single_layout _ (by norm_num) (by norm_num), by simp [bumpKmem, single]⟩
  obtain ⟨q, s, hsplit, ⟨⟨t, hi, ht⟩, hl, -⟩, -, hq, -⟩ :=
    vmaSplit_spec 0x3000 hs (fun _ => rfl) (by simp [single]) (by simp [single])
  obtain ⟨ps, found, -, hps, hfound, -, -, hiff, -⟩ := vmaFind_vmaFindFirst hi (ht ▸ hl) 0x4000
  cases hi.vmaForEach.symm.trans hps
  refine ⟨s, q, hsplit, hfound.trans (congrArg some ((hiff q).mpr ⟨by simp [ht], ?_⟩))⟩
  simp [hq, single]

end Find

/-- `vma_remove_range` returns. The address map is then undefined on the range and unchanged
elsewhere exactly when no area has the range strictly inside. -/
theorem vmaRemoveRange_addressMap_iff (K : Kmem κ) (hK : ∀ k, (K.kmalloc k).isSome)
    (s : VmaSpace κ) (t : RbTree Ptr) (hi : s.Indexed t) (hl : Layout (t.inorder.map s.range))
    (hlive : ∀ p ∈ t.inorder, K.Live s.kmem p) (start end_ : ℕ) (hse : start < end_) :
    ∃ s' t', s.vmaRemoveRange K start end_ = some s' ∧ s'.Indexed t' ∧
      ((∀ a, addressMap (t'.inorder.map s'.range) a =
          if start ≤ a ∧ a < end_ then none else addressMap (t.inorder.map s.range) a) ↔
        ∀ p ∈ t.inorder, ¬ Punched start end_ (s.range p)) := by
  obtain ⟨s', hr, ps, hs', hm⟩ := vmaRemoveRange_spec hK ⟨⟨t, hi, rfl⟩, hl, hlive⟩ start end_
  obtain ⟨t', hi', rfl⟩ := hs'.indexed
  refine ⟨s', t', hr, hi', ?_⟩
  rw [hm, addressMap_cut_iff hl hse]
  simp

/-- The pages behind a hole are gone: only the front of the area is left. -/
theorem vmaRemoveRange_loses_tail :
    let s := single ⟨0x1000, 0x5000, 3, 0, none⟩
    let s' := s.vmaRemoveRange bumpKmem 0x2000 0x3000
    s.Indexed singleTree ∧ Layout (singleTree.inorder.map s.range) ∧
      addressMap (singleTree.inorder.map s.range) 0x4000 = some (3, none, 0x3000) ∧
      s'.bind (fun s' => s'.vmaForEach.map fun ps => ps.map s'.range) =
        some [⟨0x1000, 0x2000, 3, 0, none⟩] ∧
      s'.bind (fun s' => s'.vmaForEach.map fun ps => addressMap (ps.map s'.range) 0x4000) =
        some none :=
  ⟨single_indexed _ (by norm_num), single_layout _ (by norm_num) (by norm_num),
    by decide +kernel, by decide +kernel, by decide +kernel⟩

theorem vmaRemoveRange_addressMap_iff_front :
    let s := single ⟨0x1000, 0x5000, 3, 0, none⟩
    s.Indexed singleTree ∧ Layout (singleTree.inorder.map s.range) ∧
    ∃ s' t', s.vmaRemoveRange bumpKmem 0x1000 0x2000 = some s' ∧ s'.Indexed t' ∧
      ((∀ a, addressMap (t'.inorder.map s'.range) a = if 0x1000 ≤ a ∧ a < 0x2000 then none
          else addressMap (singleTree.inorder.map s.range) a) ↔
        ∀ p ∈ singleTree.inorder, ¬ Punched 0x1000 0x2000 (s.range p)) := by
  intro s
  have hi : s.Indexed singleTree := single_indexed _ (by norm_num)
  have hl : Layout (singleTree.inorder.map s.range) := single_layout _ (by norm_num) (by norm_num)
  refine ⟨hi, hl, vmaRemoveRange_addressMap_iff bumpKmem (fun _ => rfl) s singleTree hi hl ?_
    0x1000 0x2000 (by norm_num)⟩
  simp [bumpKmem, s, single, singleTree]

end VmaSpace
end Doppio
