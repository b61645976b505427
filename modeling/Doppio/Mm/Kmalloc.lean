import Doppio.Mm.HeapOps

/-! `kmalloc`, `kfree` and `krealloc` keep the heap sound. -/
namespace Doppio
open Function
open Buddy Stacks Option
open KmemHeap Pmm

variable {s s' : KmemHeap} {tbl : Loaded} {live : ℕ → Option ℕ} {c : ℕ} {k : KmemClass} {a x : ℕ}

theorem HeapSound.load (h : HeapSound s tbl live) (c : ℕ) (k : KmemClass) (r : Option ℕ) :
    HeapSound (s.load c k r) tbl live := by
  obtain ⟨g, h⟩ := h
  exact ⟨g, h.congr rfl rfl rfl rfl rfl rfl⟩

/-- A magazine `r` for a CPU without one: empty, or null when no page is free. -/
structure Loads (s : KmemHeap) (tbl : Loaded) (live : ℕ → Option ℕ) (c : ℕ) (k : KmemClass)
    (s' : KmemHeap) (r : Option ℕ) : Prop extends HeapKept s s' where
  magazines : s'.magazines = s.magazines
  objSize : s'.objSize = s.objSize
  sound : HeapSound s' (tbl.set c k r) live
  failed : r = none → s.failures < s'.failures ∧ ∀ o < maxOrder, s.pmm.freeLists o = none
  empty : ∀ a, r = some a → (s'.magazine a).top = 0

theorem kmemInternalMagAlloc_loads (h : HeapSound s tbl live) (htbl : tbl c k = none) :
    ∃ s' r, s.kmemInternalMagAlloc = some (s', r) ∧ Loads s tbl live c k s' r := by
  obtain ⟨g, h⟩ := h
  unfold KmemHeap.kmemInternalMagAlloc
  cases hfree : s.freeMags with
  | some a =>
    obtain ⟨m, fm, he, hsound, htop⟩ := h.takeFreeMag hfree htbl
    refine ⟨_, some a, he, ⟨rfl, le_rfl, rfl⟩, rfl, rfl, hsound, by simp, ?_⟩
    intro b hb
    cases hb
    exact htop
  | none =>
    rcases pmmAllocPages_spec h.stocked.wf 0 with ⟨pmm, free', p, he, ha⟩ | ⟨he, hnone⟩
    · obtain ⟨m, hlink, g', h'⟩ := h.newBatch hfree he ha
      obtain ⟨m', fm, htake, hsound, htop⟩ := h'.takeFreeMag rfl htbl
      let t : KmemHeap := { s with pmm := pmm, magazine := m', freeMags := fm }
      refine ⟨t, some (Pmm.pageToPhys p), ?_, ⟨rfl, ?_, ha.totalPages⟩, rfl, rfl, hsound,
        by simp, ?_⟩
      · rw [hfree] at hlink
        rw [he]
        simp only
        rw [hlink]
        exact htake
      · exact (congrArg List.length ha.outOfMemory).ge
      · intro b hb
        cases hb
        exact htop
    · let t : KmemHeap := { s with pmm := { s.pmm with outOfMemory := s.pmm.outOfMemory ++ [0] } }
      have hlt : s.failures < t.failures := by simp [KmemHeap.failures, t]
      refine ⟨t, none, by simp only [he, t, hfree], ⟨rfl, hlt.le, rfl⟩, rfl, rfl, ?_,
        fun _ => ⟨hlt, fun o ho => ?_⟩, by simp⟩
      · rw [Loaded.set_eq_self htbl]
        exact ⟨g, h.outOfMemory _⟩
      · have hl := h.stocked.wf.shape.linked o ho
        rw [hnone o (by omega) ho] at hl
        exact hl

theorem kmemGetEmptyMag_loads (h : HeapSound s tbl live) (htbl : tbl c k = none) :
    ∃ s' r, s.kmemGetEmptyMag k = some (s', r) ∧ Loads s tbl live c k s' r := by
  have hself (r : Option ℕ) : tbl.set c k r c k = r := Loaded.set_self ..
  unfold KmemHeap.kmemGetEmptyMag
  cases hempty : (s.depots k).emptyMags with
  | some a =>
    obtain ⟨g, h⟩ := h
    obtain ⟨⟨g', h'⟩, htop⟩ := h.popEmpty hempty htbl
    have hsound := h'.reset (hself (some a)) htop
    refine ⟨_, some a, rfl, ⟨rfl, le_rfl, rfl⟩, rfl, rfl, hsound, nofun, ?_⟩
    intro b hb
    cases hb
    simp [KmemHeap.setMag]
  | none =>
    obtain ⟨s1, r, he, hl⟩ := kmemInternalMagAlloc_loads h htbl
    simp only [he]
    cases r with
    | none => exact ⟨s1, none, rfl, hl⟩
    | some a =>
      obtain ⟨g', h'⟩ := hl.sound
      have hsound := h'.reset (hself (some a)) (hl.empty a rfl)
      refine ⟨_, some a, rfl, ⟨hl.byte, hl.failures, hl.totalPages⟩, hl.magazines, hl.objSize,
        hsound, nofun, ?_⟩
      intro b hb
      cases hb
      simp [KmemHeap.setMag]

/-- The CPU's magazine is replaced by `r`. -/
structure Swapped (s : KmemHeap) (live : ℕ → Option ℕ) (c : ℕ) (k : KmemClass) (s' : KmemHeap)
    (r : Option ℕ) : Prop extends HeapKept s s' where
  sound : HeapSound s' s'.magazines live
  loaded : s'.magazines c k = r

theorem kmemMagazineSwapFull_spec (h : HeapSound s s.magazines live) (ha : s.magazines c k = some a)
    (htop : (s.magazine a).top = kmemMagCapacity) :
    ∃ s' r, s.kmemMagazineSwapFull c k = some s' ∧ Swapped s live c k s' r ∧
      s'.objSize = s.objSize ∧
      (r = none → s.failures < s'.failures ∧ ∀ o < maxOrder, s.pmm.freeLists o = none) ∧
      ∀ b, r = some b → (s'.magazine b).top = 0 := by
  obtain ⟨g, h⟩ := h
  have h1 := h.pushFull ha htop
  have hself (r : Option ℕ) : Loaded.set s.magazines c k r c k = r := Loaded.set_self ..
  unfold KmemHeap.kmemMagazineSwapFull
  rw [ha]
  simp only [bind_eq_bind, bind_some]
  generalize ht : (s.setMag a fun m => { m with next := (s.depots k).fullMags }).setDepot k
    (fun d => { d with fullMags := some a, fullCount := d.fullCount + 1 }) = t at h1 ⊢
  have hmags : t.magazines = s.magazines := by rw [← ht]; rfl
  have hpmm : t.pmm = s.pmm := by rw [← ht]; rfl
  have hsize : t.objSize = s.objSize := by rw [← ht]; rfl
  have hkept : HeapKept s t := by
    refine ⟨by rw [← ht]; rfl, ?_, by rw [hpmm]⟩
    unfold KmemHeap.failures
    rw [hpmm]
  cases hempty : (t.depots k).emptyMags with
  | some b =>
    obtain ⟨g1, h1⟩ := h1
    obtain ⟨hsound, htop'⟩ := h1.popEmpty hempty (hself none)
    rw [Loaded.set_set, ← hmags] at hsound
    refine ⟨_, some b, rfl, ⟨⟨hkept.byte, hkept.failures, hkept.totalPages⟩, hsound.load c k (some b),
      Loaded.set_self ..⟩, hsize, nofun, ?_⟩
    intro b' hb'
    cases hb'
    exact htop'
  | none =>
    obtain ⟨s1, r, he, hl⟩ := kmemGetEmptyMag_loads h1 (hself none)
    have hsound := hl.sound
    rw [Loaded.set_set, ← hmags, ← hl.magazines] at hsound
    simp only [he]
    refine ⟨_, r, rfl, ⟨hkept.trans ⟨hl.byte, hl.failures, hl.totalPages⟩, hsound.load c k r,
      Loaded.set_self ..⟩, hl.objSize.trans hsize, fun hr => ?_, hl.empty⟩
    obtain ⟨hlt, hfree⟩ := hl.failed hr
    rw [hpmm] at hfree
    exact ⟨hkept.failures.trans_lt hlt, hfree⟩

theorem refillSlot_spec (h : HeapSound s tbl live) (ha : tbl c k = some a)
    (htop : (s.magazine a).top < kmemMagCapacity) :
    ∃ s' left, s.refillSlot k a = some (s', left) ∧ HeapKept s s' ∧ s'.magazines = s.magazines ∧
      HeapSound s' tbl live ∧ (left = false → (s'.magazine a).top = (s.magazine a).top + 1) ∧
      (left = true → s.failures < s'.failures) := by
  obtain ⟨g, h⟩ := h
  obtain ⟨s1, r, he, hsame, hnone, hsome⟩ := h.kmemDepotRefill k
  unfold KmemHeap.refillSlot
  rw [he]
  cases r with
  | none =>
    obtain ⟨hsound, hlt⟩ := hnone rfl
    exact ⟨s1, true, rfl, hsame.toHeapKept, hsame.magazines, hsound, by simp, fun _ => hlt⟩
  | some x =>
    obtain ⟨hx, ⟨g1, h1⟩, hsize⟩ := hsome x rfl
    have htop1 : (s1.magazine a).top < kmemMagCapacity := by
      rw [hsame.magazine]
      exact htop
    obtain ⟨m, hpush, hsound, htop'⟩ := h1.pushSlot ha htop1 (by simp) hsize
    have hlive : update (update live x (some 0)) x none = live := by
      rw [update_idem, ← hx, update_eq_self]
    rw [hlive] at hsound
    simp only [hpush]
    refine ⟨_, false, rfl, ⟨hsame.byte, hsame.failures, hsame.totalPages⟩, hsame.magazines, hsound,
      fun _ => ?_, by simp⟩
    rw [htop', hsame.magazine]

theorem refillLoop_spec (h : HeapSound s tbl live) (ha : tbl c k = some a)
    (htop : (s.magazine a).top = 0) :
    ∃ s' left, Loop.forUntil (fun _ s => s.refillSlot k a) kmemMagCapacity s = some (s', left) ∧
      HeapKept s s' ∧ s'.magazines = s.magazines ∧ HeapSound s' tbl live ∧
      (left = false → (s'.magazine a).top = kmemMagCapacity) ∧
      (left = true → s.failures < s'.failures) := by
  let Filled (i : ℕ) (t : KmemHeap) : Prop :=
    HeapKept s t ∧ t.magazines = s.magazines ∧ HeapSound t tbl live ∧ (t.magazine a).top = i
  let Failed (t : KmemHeap) : Prop :=
    HeapKept s t ∧ t.magazines = s.magazines ∧ HeapSound t tbl live ∧ s.failures < t.failures
  have hstep (i : ℕ) (hi : i < kmemMagCapacity) (t : KmemHeap) (ht : Filled i t) :
      ∃ t' left, t.refillSlot k a = some (t', left) ∧ (left = false → Filled (i + 1) t') ∧
        (left = true → Failed t') := by
    obtain ⟨hk, hm, hs, htop⟩ := ht
    obtain ⟨t', left, he, hk', hm', hs', hgo, hleft⟩ := refillSlot_spec hs ha (by omega)
    refine ⟨t', left, he, fun hc => ⟨hk.trans hk', hm'.trans hm, hs', ?_⟩,
      fun hc => ⟨hk.trans hk', hm'.trans hm, hs', hk.failures.trans_lt (hleft hc)⟩⟩
    rw [hgo hc, htop]
    rfl
  obtain ⟨s', left, he, hgo, hleft⟩ :=
    Loop.forUntil_spec Filled Failed ⟨.refl s, rfl, h, htop⟩ hstep
  refine ⟨s', left, he, ?_⟩
  cases left with
  | false =>
    obtain ⟨hk, hm, hs, htop'⟩ := hgo rfl
    exact ⟨hk, hm, hs, fun _ => htop', by simp⟩
  | true =>
    obtain ⟨hk, hm, hs, hlt⟩ := hleft rfl
    exact ⟨hk, hm, hs, by simp, fun _ => hlt⟩

section
variable (h : HeapSound s s.magazines live)
include h

theorem kmemMagazineSwapEmpty_spec (ha : s.magazines c k = some a) (htop : (s.magazine a).top = 0) :
    ∃ s' r, s.kmemMagazineSwapEmpty c k = some s' ∧ Swapped s live c k s' r ∧
      (s.failures < s'.failures ∨ ∃ b, r = some b ∧ 0 < (s'.magazine b).top) := by
  obtain ⟨g, h⟩ := h
  have h1 := h.pushEmpty ha htop
  have hself (r : Option ℕ) : Loaded.set s.magazines c k r c k = r := Loaded.set_self ..
  unfold KmemHeap.kmemMagazineSwapEmpty
  rw [ha]
  simp only [bind_eq_bind, bind_some]
  generalize ht : (s.setMag a fun m => { m with next := (s.depots k).emptyMags }).setDepot k
    (fun d => { d with emptyMags := some a, emptyCount := d.emptyCount + 1 }) = t at h1 ⊢
  have hmags : t.magazines = s.magazines := by rw [← ht]; rfl
  have hpmm : t.pmm = s.pmm := by rw [← ht]; rfl
  have hkept : HeapKept s t := by
    refine ⟨by rw [← ht]; rfl, ?_, by rw [hpmm]⟩
    unfold KmemHeap.failures
    rw [hpmm]
  cases hfull : (t.depots k).fullMags with
  | some b =>
    obtain ⟨g1, h1⟩ := h1
    obtain ⟨hsound, htop'⟩ := h1.popFull hfull (hself none)
    rw [Loaded.set_set, ← hmags] at hsound
    refine ⟨_, some b, rfl, ⟨⟨hkept.byte, hkept.failures, hkept.totalPages⟩, hsound.load c k (some b),
      Loaded.set_self ..⟩, .inr ⟨b, rfl, ?_⟩⟩
    change 0 < (t.magazine b).top
    rw [htop']
    decide
  | none =>
    obtain ⟨s1, r, he, hl⟩ := kmemGetEmptyMag_loads h1 (hself none)
    have hsound := hl.sound
    rw [Loaded.set_set, ← hmags, ← hl.magazines] at hsound
    have hkept1 : HeapKept s s1 := hkept.trans hl.toHeapKept
    simp only [he]
    cases r with
    | none =>
      refine ⟨_, none, rfl, ⟨⟨hkept1.byte, hkept1.failures, hkept1.totalPages⟩, hsound.load c k none,
        Loaded.set_self ..⟩, .inl ?_⟩
      exact hkept.failures.trans_lt (hl.failed rfl).1
    | some b =>
      obtain ⟨s2, left, hloop, hk, hm, hs, hgo, hleft⟩ := refillLoop_spec (k := k) hsound
        (Loaded.set_self ..) (hl.empty b rfl)
      simp only [hloop, bind_some]
      cases left with
      | false =>
        rw [← hm] at hs
        refine ⟨_, some b, rfl, ⟨hkept1.trans ⟨hk.byte, hk.failures, hk.totalPages⟩,
          hs.load c k (some b), Loaded.set_self ..⟩, .inr ⟨b, rfl, ?_⟩⟩
        change 0 < (s2.magazine b).top
        rw [hgo rfl]
        decide
      | true =>
        rw [← hm] at hs
        exact ⟨_, some b, rfl, ⟨hkept1.trans ⟨hk.byte, hk.failures, hk.totalPages⟩,
          hs.load c k (some b), Loaded.set_self ..⟩, .inl (hkept1.failures.trans_lt (hleft rfl))⟩

theorem loadMagazine_spec (c : ℕ) (k : KmemClass) :
    ∃ s' r, s.loadMagazine c k = some s' ∧ Swapped s live c k s' r ∧ s'.objSize = s.objSize ∧
      (r = none → s.failures < s'.failures) ∧
      (s' = s ∨ ∀ a, r = some a → (s'.magazine a).top = 0) := by
  unfold KmemHeap.loadMagazine
  cases hc : s.magazines c k with
  | some a =>
    exact ⟨s, some a, rfl, ⟨.refl s, h, hc⟩, rfl, nofun, .inl rfl⟩
  | none =>
    obtain ⟨s1, r, he, hl⟩ := kmemGetEmptyMag_loads h hc
    have hsound := hl.sound
    rw [← hl.magazines] at hsound
    simp only [he]
    exact ⟨_, r, rfl, ⟨⟨hl.byte, hl.failures, hl.totalPages⟩, hsound.load c k r,
      Loaded.set_self ..⟩, hl.objSize, fun hr => (hl.failed hr).1, .inr hl.empty⟩

/-- `kmalloc` of a size that does not wrap: a new block large enough, or null for size zero, too
large, or a failed allocation. -/
theorem kmalloc_spec (c : ℕ) {size : BitVec 64} (hsize : size.toNat + 4095 < 2 ^ 64) :
    ∃ s' r, s.kmalloc c size = some (s', r) ∧ HeapKept s s' ∧
      (r = none → HeapSound s' s'.magazines live ∧
        (size = 0 ∨ 2 ^ 22 < size.toNat ∨ s.failures < s'.failures)) ∧
      ∀ x, r = some x → live x = none ∧
        HeapSound s' s'.magazines (update live x (some size.toNat)) := by
  unfold KmemHeap.kmalloc
  by_cases hzero : size = 0
  · rw [if_pos hzero]
    exact ⟨s, none, rfl, .refl s, fun _ => ⟨h, .inl hzero⟩, nofun⟩
  rw [if_neg hzero]
  by_cases hlarge : kmemMaxDirect < size.toNat
  · rw [if_pos hlarge]
    obtain ⟨g, h⟩ := h
    obtain ⟨s1, r, he, hkept, hmags, hnone, hsome⟩ := h.kmemAllocLarge hsize
    simp only [he, bind_eq_bind]
    rw [← hmags] at hnone hsome
    cases r with
    | none =>
      obtain ⟨hsound, hwhy⟩ := hnone rfl
      exact ⟨s1, none, rfl, hkept, fun _ => ⟨hsound, .inr hwhy⟩, nofun⟩
    | some x =>
      obtain ⟨hx, g1, h1⟩ := hsome x rfl
      have hlive : update live x (some size.toNat) x ≠ none := by simp
      simp only [h1.physToPage hlive, bind_some]
      refine ⟨s1, some x, rfl, hkept, nofun, fun y hy => ?_⟩
      cases hy
      exact ⟨hx, g1, h1⟩
  rw [if_neg hlarge]
  obtain ⟨k, hk⟩ := exists_kmemGetIndex (Nat.le_of_not_lt hlarge)
  have hle := le_of_kmemGetIndex hk
  rw [hk]
  obtain ⟨s1, r1, he1, hsw1, -, hfail1, -⟩ := loadMagazine_spec h c k
  simp only [he1, bind_eq_bind, bind_some, hsw1.loaded]
  -- an object from the top of the magazine that the CPU has
  have hpop (t : KmemHeap) (b : ℕ) (hk : HeapKept s t) (hs : HeapSound t t.magazines live)
      (hb : t.magazines c k = some b) (htop : 0 < (t.magazine b).top) :
      ∃ s' r, t.popSlot b = some (s', r) ∧ HeapKept s s' ∧
        (r = none → HeapSound s' s'.magazines live ∧
          (size = 0 ∨ 2 ^ 22 < size.toNat ∨ s.failures < s'.failures)) ∧
        ∀ x, r = some x → live x = none ∧
          HeapSound s' s'.magazines (update live x (some size.toNat)) := by
    obtain ⟨g, ht⟩ := hs
    obtain ⟨m, x, he, hx, hsound⟩ := ht.popSlot hb htop
    refine ⟨_, some x, he, ⟨hk.byte, hk.failures, hk.totalPages⟩, nofun, fun y hy => ?_⟩
    cases hy
    exact ⟨hx, hsound _ hle⟩
  cases r1 with
  | none =>
    exact ⟨s1, none, rfl, hsw1.toHeapKept, fun _ => ⟨hsw1.sound, .inr (.inr (hfail1 rfl))⟩, nofun⟩
  | some a =>
    simp only
    by_cases htop : 0 < (s1.magazine a).top
    · rw [if_pos htop]
      exact hpop s1 a hsw1.toHeapKept hsw1.sound hsw1.loaded htop
    rw [if_neg htop]
    have htop0 : (s1.magazine a).top = 0 := by
      obtain ⟨g1, h1⟩ := hsw1.sound
      have := (h1.racked.loaded c k a hsw1.loaded).top
      omega
    obtain ⟨s2, r2, he2, hsw2, hwhy⟩ := kmemMagazineSwapEmpty_spec hsw1.sound hsw1.loaded htop0
    have hkept2 := hsw1.toHeapKept.trans hsw2.toHeapKept
    simp only [he2, bind_some, hsw2.loaded]
    cases r2 with
    | none =>
      refine ⟨s2, none, rfl, hkept2, fun _ => ⟨hsw2.sound, .inr (.inr ?_)⟩, nofun⟩
      rcases hwhy with hlt | ⟨b, hb, -⟩
      · exact hsw1.failures.trans_lt hlt
      · cases hb
    | some b =>
      simp only
      by_cases htop2 : 0 < (s2.magazine b).top
      · rw [if_pos htop2]
        exact hpop s2 b hkept2 hsw2.sound hsw2.loaded htop2
      · rw [if_neg htop2]
        refine ⟨s2, none, rfl, hkept2, fun _ => ⟨hsw2.sound, .inr (.inr ?_)⟩, nofun⟩
        rcases hwhy with hlt | ⟨b', hb', hpos⟩
        · exact hsw1.failures.trans_lt hlt
        · cases hb'
          exact absurd hpos htop2

end

def KmemHeap.Exhausted (s : KmemHeap) : Prop := ∀ o < maxOrder, s.pmm.freeLists o = none

theorem HeapSound.resize (h : HeapSound s tbl live) (hx : live x ≠ none) {n : ℕ}
    (hn : n ≤ s.oldSize (x / pageSize)) : HeapSound s tbl (update live x (some n)) := by
  obtain ⟨g, h⟩ := h
  refine ⟨g, h.racked, h.stocked, h.stacked, h.shelf_cell, h.loaded_cell, fun y hy => ?_,
    fun y m hy => ?_⟩
  · by_cases hyx : y = x
    · subst hyx
      rw [h.loc_eq_none y hy]
      simp [hx]
    · rw [update_of_ne hyx]
      exact h.loc_eq_none y hy
  · by_cases hyx : y = x
    · subst hyx
      rw [update_self] at hy
      cases hy
      unfold KmemHeap.oldSize at hn
      split_ifs at hn with hsize
      · obtain ⟨b, hb, hxb, -, hord⟩ := h.large_of_live hx hsize
        rw [hord] at hn
        exact .inr ⟨b, hb, hxb, hn⟩
      · obtain ⟨k, hkind, hk⟩ := h.kind_of_live hx hsize
        rw [hk] at hn
        exact .inl ⟨k, hkind, hn⟩
    · rw [update_of_ne hyx] at hy
      exact h.live_cases y m hy

section
variable (h : HeapSound s s.magazines live)
include h

theorem freeObject_spec (c : ℕ) (hx : live x ≠ none)
    (hsize : s.objSize (x / pageSize) = kmemClassSizes k) :
    (s.freeObject c k x = none ∧ s.Exhausted) ∨ ∃ s', s.freeObject c k x = some s' ∧ HeapKept s s' ∧
      (s'.failures = s.failures → HeapSound s' s'.magazines (update live x none)) := by
  -- the magazine that the CPU has takes one more object
  have hpush (t : KmemHeap) (b : ℕ) (hk : HeapKept s t) (hs : HeapSound t t.magazines live)
      (ht : t.objSize = s.objSize) (hb : t.magazines c k = some b)
      (htop : (t.magazine b).top < kmemMagCapacity) : ∃ s', t.pushSlot b x = some s' ∧ HeapKept s s' ∧
        (s'.failures = s.failures → HeapSound s' s'.magazines (update live x none)) := by
    obtain ⟨g, hinv⟩ := hs
    obtain ⟨m, he, hsound, -⟩ := hinv.pushSlot hb htop hx (by rw [ht, hsize])
    exact ⟨_, he, ⟨hk.byte, hk.failures, hk.totalPages⟩, fun _ => hsound⟩
  obtain ⟨s1, r1, he1, hsw1, hsize1, hfail1, hwhich⟩ := loadMagazine_spec h c k
  unfold KmemHeap.freeObject
  simp only [he1, bind_eq_bind, bind_some, hsw1.loaded]
  cases r1 with
  | none =>
    refine .inr ⟨s1, rfl, hsw1.toHeapKept, fun heq => ?_⟩
    have hlt := hfail1 rfl
    omega
  | some a =>
    simp only
    by_cases htop : (s1.magazine a).top < kmemMagCapacity
    · rw [if_pos htop]
      exact .inr (hpush s1 a hsw1.toHeapKept hsw1.sound hsize1 hsw1.loaded htop)
    rw [if_neg htop]
    -- a magazine that is full was there before
    obtain rfl : s1 = s := by
      rcases hwhich with hs | hempty
      · exact hs
      · rw [hempty a rfl] at htop
        exact absurd (by decide) htop
    have hfull : (s1.magazine a).top = kmemMagCapacity := by
      obtain ⟨g, hinv⟩ := h
      have hh := hinv.racked.loaded c k a hsw1.loaded
      have htop' := hh.top
      have hle := hh.length_le
      omega
    obtain ⟨s2, r2, he2, hsw2, hsize2, hfail2, hempty2⟩ :=
      kmemMagazineSwapFull_spec h hsw1.loaded hfull
    simp only [he2, bind_some, hsw2.loaded]
    cases r2 with
    | none => exact .inl ⟨rfl, (hfail2 rfl).2⟩
    | some b =>
      right
      apply hpush s2 b hsw2.toHeapKept hsw2.sound hsize2 hsw2.loaded
      rw [hempty2 b rfl]
      decide

/-- `kfree` of a live block writes only its bytes; it returns unless no page is free. -/
theorem kfree_spec (c : ℕ) (hx : live x ≠ none) :
    (s.kfree c (some x) = none ∧ s.Exhausted) ∨
    ∃ s', s.kfree c (some x) = some s' ∧ s.failures ≤ s'.failures ∧
      s'.pmm.totalPages = s.pmm.totalPages ∧
      (s'.failures = s.failures → HeapSound s' s'.magazines (update live x none)) ∧
      ∀ y, y < x ∨ x + s.oldSize (x / pageSize) ≤ y → s'.byte y = s.byte y := by
  obtain ⟨g, h⟩ := h
  have hfill (n y : ℕ) (hy : y < x ∨ x + n ≤ y) : (s.kasanKfree x n).byte y = s.byte y := by
    apply if_neg
    omega
  unfold KmemHeap.kfree
  simp only [h.physToPage hx, bind_eq_bind, bind_some]
  by_cases hsize : s.objSize (x / pageSize) = 0
  · right
    rw [if_pos hsize]
    obtain ⟨⟨g', h'⟩, hoom, htotal⟩ := h.freeLarge hx hsize
    refine ⟨_, rfl, (congrArg List.length hoom).ge, htotal, fun _ => ?_, fun y hy => hfill _ y ?_⟩
    · exact ⟨g', h'.congr rfl rfl rfl rfl rfl rfl⟩
    · unfold KmemHeap.oldSize at hy
      rwa [if_pos hsize] at hy
  rw [if_neg hsize]
  obtain ⟨k, -, hk⟩ := h.kind_of_live hx hsize
  have hold : s.oldSize (x / pageSize) = kmemClassSizes k := by
    unfold KmemHeap.oldSize
    rw [if_neg hsize, hk]
  let t : KmemHeap := { s.kasanKfree x (s.objSize (x / pageSize)) with
    freeCount := update s.freeCount (x / pageSize) (s.freeCount (x / pageSize) + 1) }
  have ht : HeapSound t t.magazines live := ⟨g, h.congr rfl rfl rfl rfl rfl rfl⟩
  have hidx : kmemGetIndex (t.objSize (x / pageSize)) = some k := by
    change kmemGetIndex (s.objSize (x / pageSize)) = some k
    rw [hk, kmemGetIndex_classSize]
  rw [show kmemGetIndex (KmemHeap.objSize _ (x / pageSize)) = some k from hidx]
  rcases freeObject_spec ht c hx hk with hex | ⟨s', he, hkept, hsound⟩
  · exact .inl hex
  · refine .inr ⟨s', he, hkept.failures, hkept.totalPages, hsound, fun y hy => ?_⟩
    rw [hkept.byte]
    apply hfill
    rwa [hk, ← hold]

/-- `krealloc` of a live block to a size that does not wrap and is not zero: null if too large or
after a failed allocation, or a block with the old contents as far as both sizes reach. It returns
unless no page is free after its `kmalloc`. -/
theorem krealloc_spec (c : ℕ) (hx : live x ≠ none) {size : BitVec 64}
    (hzero : size ≠ 0) (hsize : size.toNat + 4095 < 2 ^ 64) :
    (s.krealloc c (some x) size = none ∧ ∃ s1 r, s.kmalloc c size = some (s1, r) ∧ s1.Exhausted) ∨
    ∃ s' r, s.krealloc c (some x) size = some (s', r) ∧ s.failures ≤ s'.failures ∧
      s'.pmm.totalPages = s.pmm.totalPages ∧
      (r = none → s'.failures = s.failures → HeapSound s' s'.magazines live ∧ 2 ^ 22 < size.toNat) ∧
      ∀ y, r = some y → (y = x ∨ live y = none) ∧ (s'.failures = s.failures → HeapSound s' s'.magazines
          (update (update live x none) y (some size.toNat))) ∧
        ∀ i < min (s.oldSize (x / pageSize)) size.toNat, s'.byte (y + i) = s.byte (x + i) := by
  obtain ⟨g, hinv⟩ := h
  unfold KmemHeap.krealloc
  simp only [if_neg hzero, hinv.physToPage hx, bind_eq_bind, bind_some]
  by_cases hle : size.toNat ≤ s.oldSize (x / pageSize)
  · right
    rw [if_pos hle]
    refine ⟨s, some x, rfl, le_rfl, rfl, nofun, fun y hy => ?_⟩
    cases hy
    refine ⟨.inl rfl, fun _ => ?_, fun i _ => rfl⟩
    rw [update_idem]
    exact HeapSound.resize ⟨g, hinv⟩ hx hle
  rw [if_neg hle]
  obtain ⟨s1, r, he, hkept, hnone, hsome⟩ := kmalloc_spec ⟨g, hinv⟩ c hsize
  simp only [he]
  cases r with
  | none =>
    right
    refine ⟨s1, none, rfl, hkept.failures, hkept.totalPages, fun _ heq => ?_, nofun⟩
    obtain ⟨hsound, hwhy⟩ := hnone rfl
    refine ⟨hsound, ?_⟩
    rcases hwhy with hz | hbig | hlt
    · exact absurd hz hzero
    · exact hbig
    · omega
  | some y =>
    obtain ⟨hy, g1, h1⟩ := hsome y rfl
    have hxy : x ≠ y := by
      rintro rfl
      exact hx hy
    let t := s1.memcpy y x (s.oldSize (x / pageSize))
    have ht : HeapSound t t.magazines (update live y (some size.toNat)) :=
      ⟨g1, h1.congr rfl rfl rfl rfl rfl rfl⟩
    have hxt : update live y (some size.toNat) x ≠ none := by
      rw [update_of_ne hxy]
      exact hx
    have hyt : update live y (some size.toNat) y ≠ none := by simp
    rcases kfree_spec ht c hxt with ⟨he', hex⟩ | ⟨s', he', hfail, htotal, hsound, hbyte⟩
    · refine .inl ⟨?_, s1, some y, rfl, hex⟩
      change (t.kfree c (some x)).map _ = _
      rw [he']
      rfl
    right
    refine ⟨s', some y, ?_, hkept.failures.trans hfail, htotal.trans hkept.totalPages,
      nofun, fun z hz => ?_⟩
    · change (t.kfree c (some x)).map _ = _
      rw [he']
      rfl
    cases hz
    refine ⟨.inr hy, fun heq => ?_, fun i hi => ?_⟩
    · rw [update_comm hxy]
      apply hsound
      have h1 := hkept.failures
      have h2 : t.failures = s1.failures := rfl
      omega
    · -- the copy is in the new block, which the old one is apart from
      have hi' := lt_min_iff.mp hi
      have hnew : i < t.oldSize (y / pageSize) := by
        obtain ⟨hext, -⟩ := h1.extent (update_self y (some size.toNat) live)
        exact lt_of_lt_of_le hi'.2 hext
      have hout : y + i < x ∨ x + t.oldSize (x / pageSize) ≤ y + i := by
        by_contra hc
        have hj : y + i - x < t.oldSize (x / pageSize) := by omega
        exact h1.disjoint hxt hyt hxy hj hnew (by omega)
      rw [hbyte (y + i) hout]
      change (if y ≤ y + i ∧ y + i < y + s.oldSize (x / pageSize) then
        s1.byte (x + (y + i - y)) else s1.byte (y + i)) = _
      rw [if_pos (by omega), Nat.add_sub_cancel_left, hkept.byte]

end

end Doppio
