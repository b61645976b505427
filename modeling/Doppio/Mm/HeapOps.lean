import Doppio.Mm.Heap

/-! The steps of `kmalloc` and `kfree`: magazines move between depots and CPUs, objects between
magazines and callers, and blocks come from the page allocator. -/
namespace Doppio
open Function
open Buddy Stacks

namespace KmemHeap

variable {s : KmemHeap} {k : KmemClass} {f : Depot → Depot}

theorem head_setDepot_empty (hf : (f (s.depots k)).fullMags = (s.depots k).fullMags) :
    (s.setDepot k f).head = update s.head (.empty k) (f (s.depots k)).emptyMags := by
  funext i
  cases i with
  | spare => simp [head, setDepot]
  | full j =>
    by_cases hj : j = k <;> simp [head, setDepot, hj, hf]
  | empty j =>
    by_cases hj : j = k <;> simp [head, setDepot, hj]

theorem head_setDepot_full (hf : (f (s.depots k)).emptyMags = (s.depots k).emptyMags) :
    (s.setDepot k f).head = update s.head (.full k) (f (s.depots k)).fullMags := by
  funext i
  cases i with
  | spare => simp [head, setDepot]
  | full j =>
    by_cases hj : j = k <;> simp [head, setDepot, hj]
  | empty j =>
    by_cases hj : j = k <;> simp [head, setDepot, hj, hf]

theorem count_setDepot_empty (hf : (f (s.depots k)).fullCount = (s.depots k).fullCount) :
    (s.setDepot k f).count = update s.count (.empty k) (f (s.depots k)).emptyCount := by
  funext i
  cases i with
  | spare => simp [count]
  | full j =>
    by_cases hj : j = k <;> simp [count, setDepot, hj, hf]
  | empty j =>
    by_cases hj : j = k <;> simp [count, setDepot, hj]

theorem count_setDepot_full (hf : (f (s.depots k)).emptyCount = (s.depots k).emptyCount) :
    (s.setDepot k f).count = update s.count (.full k) (f (s.depots k)).fullCount := by
  funext i
  cases i with
  | spare => simp [count]
  | full j =>
    by_cases hj : j = k <;> simp [count, setDepot, hj]
  | empty j =>
    by_cases hj : j = k <;> simp [count, setDepot, hj, hf]

end KmemHeap

variable {f : Depot → Depot}

theorem Stocked.setDepot {s : KmemHeap} {kind : ℕ → Option KmemClass} {use : Block → Option BlockUse}
    {free : ℕ → List ℕ} {alloc : Set Block} {k : KmemClass} (h : Stocked s kind use free alloc)
    (ho : (f (s.depots k)).currentOrder = (s.depots k).currentOrder)
    (hr : (f (s.depots k)).objsRemaining = (s.depots k).objsRemaining)
    (hc : (f (s.depots k)).currentChunk = (s.depots k).currentChunk) :
    Stocked (s.setDepot k f) kind use free alloc := by
  refine h.congr rfl rfl rfl fun k' => ?_
  by_cases hk : k' = k <;> simp [KmemHeap.setDepot, hk, ho, hr, hc]

theorem magazineAt_div {p i : ℕ} (hi : i < magazinesPerPage) :
    magazineAt (p * pageSize) i / pageSize = p := by
  have hlt : i < 28 := hi
  unfold magazineAt magazineSize pageSize
  omega

theorem Pmm.modify_id (s : Pmm) (p : ℕ) : s.modify p (fun q => q) = s := by
  unfold Pmm.modify
  rw [update_eq_self]

namespace HeapInv
open KmemHeap Pmm

variable {s s' : KmemHeap} {tbl : Loaded} {live : ℕ → Option ℕ} {g : HeapLayout} {c : ℕ} {k : KmemClass}
  {a x : ℕ}

section
variable (h : HeapInv s tbl live g)
include h

variable {i : Shelf}

theorem taken {as : List ℕ} (hi : g.shelf i = a :: as)
    (hr : Racked s' (tbl.set c k (some a)) g.kind (update g.shelf i as) g.contents)
    (hs : Stocked s' g.kind g.use g.free g.alloc) :
    HeapInv s' (tbl.set c k (some a)) live { g with shelf := update g.shelf i as } := by
  refine ⟨hr, hs, h.stacked, ?_, ?_, h.loc_eq_none, h.live_cases⟩
  · intro j b hb
    apply h.shelf_cell j
    by_cases hj : j = i
    · subst hj
      simp only [update_self] at hb
      rw [hi]
      exact List.mem_cons_of_mem a hb
    · simpa [hj] using hb
  · intro c' k' b hb
    rw [Loaded.set_apply] at hb
    split_ifs at hb
    · cases hb
      exact h.shelf_cell i a (by simp [hi])
    · exact h.loaded_cell c' k' b hb

theorem popEmpty (he : (s.depots k).emptyMags = some a) (htbl : tbl c k = none) :
    HeapSound (s.popEmpty k a) (tbl.set c k (some a)) live ∧ (s.magazine a).top = 0 := by
  have hi : s.head (.empty k) = some a := he
  have hmem := h.racked.shelves.head_mem hi
  have htop := h.racked.empty k a hmem
  have hnil := h.racked.contents_of_shelf hmem (by simp)
  have hcount (j : Shelf) : (s.popEmpty k a).count j =
      if j = .empty k ∧ Shelf.empty k ≠ .spare then s.count j - 1 else s.count j := by
    unfold KmemHeap.popEmpty
    rw [count_setDepot_empty rfl]
    by_cases hj : j = .empty k <;> simp [hj, KmemHeap.count]
  have hholds : HoldsObjects g.kind k ((s.popEmpty k a).magazine a) (g.contents a) :=
    ⟨by rw [hnil]; exact htop, by simp [hnil], by simp [hnil], by simp [hnil]⟩
  have hhead : (s.popEmpty k a).head = update s.head (.empty k) (s.next a) :=
    head_setDepot_empty rfl
  obtain ⟨as, has, hr⟩ := h.racked.take hi htbl hhead (fun _ _ => rfl) hcount hholds
  exact ⟨⟨_, h.taken has hr (h.stocked.setDepot rfl rfl rfl)⟩, htop⟩

theorem popFull (he : (s.depots k).fullMags = some a) (htbl : tbl c k = none) :
    HeapSound (s.setDepot k fun d =>
      { d with fullMags := (s.magazine a).next, fullCount := d.fullCount - 1 })
      (tbl.set c k (some a)) live ∧ (s.magazine a).top = kmemMagCapacity := by
  have hi : s.head (.full k) = some a := he
  obtain ⟨hholds, hlen⟩ := h.racked.full k a (h.racked.shelves.head_mem hi)
  have hcount (j : Shelf) : (s.setDepot k fun d =>
      { d with fullMags := (s.magazine a).next, fullCount := d.fullCount - 1 }).count j =
      if j = .full k ∧ Shelf.full k ≠ .spare then s.count j - 1 else s.count j := by
    rw [count_setDepot_full rfl]
    by_cases hj : j = .full k <;> simp [hj, KmemHeap.count]
  have hhead : (s.setDepot k fun d =>
      { d with fullMags := (s.magazine a).next, fullCount := d.fullCount - 1 }).head =
      update s.head (.full k) (s.next a) := head_setDepot_full rfl
  obtain ⟨as, has, hr⟩ := h.racked.take hi htbl hhead (fun _ _ => rfl) hcount hholds
  refine ⟨⟨_, h.taken has hr (h.stocked.setDepot rfl rfl rfl)⟩, ?_⟩
  rw [hholds.top, hlen]

theorem takeFreeMag (he : s.freeMags = some a) (htbl : tbl c k = none) :
    ∃ m fm, s.takeFreeMag = some ({ s with magazine := m, freeMags := fm }, some a) ∧
      HeapSound { s with magazine := m, freeMags := fm } (tbl.set c k (some a)) live ∧
      (m a).top = 0 := by
  have hi : s.head .spare = some a := he
  have hnil := h.racked.contents_of_shelf (h.racked.shelves.head_mem hi) (by simp)
  let m := update s.magazine a { s.magazine a with top := 0, next := none }
  let t : KmemHeap := { s with magazine := m, freeMags := (s.magazine a).next }
  have hhead : t.head = update s.head .spare (s.next a) := by
    funext j
    cases j <;> simp [KmemHeap.head, KmemHeap.next, t]
  have hcount (j : Shelf) : t.count j =
      if j = .spare ∧ Shelf.spare ≠ .spare then s.count j - 1 else s.count j := by
    cases j <;> rfl
  have hholds : HoldsObjects g.kind k (t.magazine a) (g.contents a) :=
    ⟨by simp [t, m, hnil], by simp [hnil], by simp [hnil], by simp [hnil]⟩
  obtain ⟨as, has, hr⟩ := h.racked.take hi htbl hhead (fun b hb => update_of_ne hb ..)
    hcount hholds
  refine ⟨m, (s.magazine a).next, ?_, ⟨_, h.taken has hr ?_⟩, by simp [m]⟩
  · unfold KmemHeap.takeFreeMag
    rw [he]
    rfl
  · exact h.stocked.withMags _ _

section
variable (htbl : tbl c k = some a)
include htbl

theorem reset (htop : (s.magazine a).top = 0) :
    HeapSound (s.setMag a fun m => { m with top := 0, next := none }) tbl live := by
  have hr : Racked (s.setMag a fun m => { m with top := 0, next := none }) tbl g.kind g.shelf
      g.contents := by
    refine h.racked.setNext (v := none) htbl ?_ rfl rfl
    unfold KmemHeap.setMag
    rw [← htop]
  exact ⟨g, hr, h.stocked.withMags _ _, h.stacked, h.shelf_cell,
    h.loaded_cell, h.loc_eq_none, h.live_cases⟩

theorem put (hr : Racked s' (tbl.set c k none) g.kind (update g.shelf i (a :: g.shelf i))
      g.contents) (hs : Stocked s' g.kind g.use g.free g.alloc) :
    HeapInv s' (tbl.set c k none) live { g with shelf := update g.shelf i (a :: g.shelf i) } := by
  refine ⟨hr, hs, h.stacked, ?_, ?_, h.loc_eq_none, h.live_cases⟩
  · intro j b hb
    by_cases hj : j = i
    · subst hj
      simp only [update_self, List.mem_cons] at hb
      rcases hb with rfl | hb
      · exact h.loaded_cell c k b htbl
      · exact h.shelf_cell j b hb
    · simp only [update_of_ne hj] at hb
      exact h.shelf_cell j b hb
  · intro c' k' b hb
    rw [Loaded.set_apply] at hb
    split_ifs at hb
    exact h.loaded_cell c' k' b hb

theorem push (hi : (i = .full k ∧ (g.contents a).length = kmemMagCapacity) ∨
      (i = .empty k ∧ g.contents a = []))
    (hhead : ((s.setMag a fun m => { m with next := s.head i }).setDepot k f).head =
      update s.head i (some a))
    (hcount : ((s.setMag a fun m => { m with next := s.head i }).setDepot k f).count =
      update s.count i (s.count i + 1))
    (ho : (f (s.depots k)).currentOrder = (s.depots k).currentOrder)
    (hr : (f (s.depots k)).objsRemaining = (s.depots k).objsRemaining)
    (hc : (f (s.depots k)).currentChunk = (s.depots k).currentChunk) :
    HeapSound ((s.setMag a fun m => { m with next := s.head i }).setDepot k f)
      (tbl.set c k none) live := by
  refine ⟨_, h.put htbl (h.racked.put htbl hi rfl hhead fun j => ?_)
    ((h.stocked.withMags _ _).setDepot ho hr hc)⟩
  rw [hcount]
  by_cases hj : j = i <;> simp [hj]

theorem pushFull (htop : (s.magazine a).top = kmemMagCapacity) :
    HeapSound ((s.setMag a fun m => { m with next := (s.depots k).fullMags }).setDepot k fun d =>
      { d with fullMags := some a, fullCount := d.fullCount + 1 }) (tbl.set c k none) live := by
  have hlen : (g.contents a).length = kmemMagCapacity := by
    have := (h.racked.loaded c k a htbl).top
    omega
  exact h.push (i := .full k) htbl (.inl ⟨rfl, hlen⟩) (head_setDepot_full rfl)
    (count_setDepot_full rfl) rfl rfl rfl

theorem pushEmpty (htop : (s.magazine a).top = 0) :
    HeapSound ((s.setMag a fun m => { m with next := (s.depots k).emptyMags }).setDepot k fun d =>
      { d with emptyMags := some a, emptyCount := d.emptyCount + 1 }) (tbl.set c k none) live := by
  have hnil : g.contents a = [] := by
    have := (h.racked.loaded c k a htbl).top
    apply List.length_eq_zero_iff.mp
    omega
  exact h.push (i := .empty k) htbl (.inr ⟨rfl, hnil⟩) (head_setDepot_empty rfl)
    (count_setDepot_empty rfl) rfl rfl rfl

theorem pushSlot (htop : (s.magazine a).top < kmemMagCapacity) (hx : live x ≠ none)
    (hsize : s.objSize (x / pageSize) = kmemClassSizes k) :
    ∃ m, s.pushSlot a x = some { s with magazine := m } ∧
      HeapSound { s with magazine := m } tbl (update live x none) ∧
      (m a).top = (s.magazine a).top + 1 := by
  obtain ⟨k', hk', hsize'⟩ := h.kind_of_live hx (by rw [hsize]; exact (kmemClassSizes_pos k).ne')
  obtain rfl : k' = k := kmemClassSizes_inj (hsize'.symm.trans hsize)
  have hloc : g.loc x = none := (h.loc_eq_none x (by rw [hk']; simp)).mpr hx
  obtain ⟨m, he, hr, htop'⟩ := h.racked.pushSlot htbl htop hk'
  refine ⟨m, he, ⟨{ g with
    contents := update g.contents a (g.contents a ++ [x])
    loc := update g.loc x (some (a, (g.contents a).length)) }, hr, ?_, ?_, h.shelf_cell,
    h.loaded_cell, ?_, ?_⟩, htop'⟩
  · exact h.stocked.withMags _ _
  · exact h.stacked.push hloc a
  · intro y hy
    by_cases hyx : y = x
    · subst hyx
      simp
    · simp only [update_of_ne hyx]
      exact h.loc_eq_none y hy
  · intro y n hy
    by_cases hyx : y = x
    · subst hyx
      simp at hy
    · rw [update_of_ne hyx] at hy
      exact h.live_cases y n hy

theorem popSlot (htop : 0 < (s.magazine a).top) :
    ∃ m x, s.popSlot a = some ({ s with magazine := m }, some x) ∧ live x = none ∧
      ∀ n ≤ kmemClassSizes k, HeapSound { s with magazine := m } tbl (update live x (some n)) := by
  obtain ⟨m, x, xs, hxs, he, hr, hk⟩ := h.racked.popSlot htbl htop
  have hx : live x = none := by
    have hmem : ∃ n, g.loc x = some (a, n) := h.stacked.mem.mp (by simp [hxs])
    obtain ⟨n, hn⟩ := hmem
    by_contra hne
    simp [(h.loc_eq_none x (by rw [hk]; simp)).mpr hne] at hn
  refine ⟨m, x, he, hx, fun n hn => ⟨{ g with
    contents := update g.contents a xs
    loc := update g.loc x none }, hr, ?_, h.stacked.pop hxs, h.shelf_cell, h.loaded_cell, ?_, ?_⟩⟩
  · exact h.stocked.withMags _ _
  · intro y hy
    by_cases hyx : y = x
    · subst hyx
      simp
    · simp only [update_of_ne hyx]
      exact h.loc_eq_none y hy
  · intro y n' hy
    by_cases hyx : y = x
    · subst hyx
      rw [update_self] at hy
      cases hy
      exact .inl ⟨k, hk, hn⟩
    · rw [update_of_ne hyx] at hy
      exact h.live_cases y n' hy

end

theorem outOfMemory (os : List ℕ) :
    HeapInv { s with pmm := { s.pmm with outOfMemory := os } } tbl live g :=
  { h with
      racked := h.racked.withPmm _ _
      stocked := h.stocked.outOfMemory os }

variable {free' : ℕ → List ℕ}

theorem assigned {p o : ℕ} {u : BlockUse} {alloc' : Set Block} (hnone : g.use ⟨p, o⟩ = none)
    (hr : Racked s' tbl g.kind g.shelf g.contents)
    (hs : Stocked s' g.kind (update g.use ⟨p, o⟩ (some u)) free' alloc') :
    HeapInv s' tbl live { g with
      use := update g.use ⟨p, o⟩ (some u), free := free', alloc := alloc' } := by
  have hkeep {b : Block} {v : BlockUse} (hb : g.use b = some v) :
      update g.use ⟨p, o⟩ (some u) b = some v := by
    rw [update_of_ne]
    · exact hb
    · rintro rfl
      simp [hnone] at hb
  have hcell {a : ℕ} (ha : IsCell g.use a) :
      IsCell (update g.use ⟨p, o⟩ (some u)) a := by
    obtain ⟨q, i, hq, hi, rfl⟩ := ha
    exact ⟨q, i, hkeep hq, hi, rfl⟩
  refine ⟨hr, hs, h.stacked, fun i a ha => hcell (h.shelf_cell i a ha),
    fun c k a ha => hcell (h.loaded_cell c k a ha), h.loc_eq_none, fun x n hx => ?_⟩
  rcases h.live_cases x n hx with hk | ⟨b, hb, hxb, hn⟩
  · exact .inl hk
  · exact .inr ⟨b, hkeep hb, hxb, hn⟩

theorem newBatch (hfree : s.freeMags = none) {p : ℕ} {pmm : Pmm}
    (he : s.pmm.pmmAllocPages 0 = some (pmm, some p))
    (ha : Allocated s.pmm g.free g.alloc 0 pmm free' p) :
    ∃ m, KmemHeap.linkBatch { s with pmm := pmm } (Pmm.pageToPhys p) =
        { s with pmm := pmm, magazine := m } ∧ HeapSound { s with
          pmm := pmm
          magazine := m
          freeMags := some (Pmm.pageToPhys p) } tbl live := by
  obtain ⟨hs, hnone⟩ := h.stocked.pmmAllocPages he ha
  have hphys : Pmm.pageToPhys p = p * pageSize := hs.pageToPhys (b := ⟨p, 0⟩) (Set.mem_insert _ _)
  have hcell (i : ℕ) (hi : i < magazinesPerPage) :
      ¬ IsCell g.use (magazineAt (p * pageSize) i) := by
    rintro ⟨q, j, hq, hj, heq⟩
    have hdiv := congrArg (fun x => x / pageSize) heq
    simp only [magazineAt_div hi, magazineAt_div hj] at hdiv
    simp [← hdiv, hnone] at hq
  have hr0 := h.racked.withPmm pmm s.objSize
  rw [hphys]
  obtain ⟨m, hm, hr⟩ := hr0.addBatch hfree (p * pageSize) fun i hi =>
    ⟨fun j hj => hcell i hi (h.shelf_cell j _ hj), fun c k hc => hcell i hi (h.loaded_cell c k _ hc)⟩
  refine ⟨m, hm, ?_⟩
  have hass := hs.assign (f := fun q => q) (Set.mem_insert _ _) hnone .magazines (fun _ hq => hq)
    (fun _ _ => rfl) (nofun) (nofun)
  rw [modify_id] at hass
  have hinv := h.assigned hnone hr0 hass
  let cells := (List.range magazinesPerPage).map (magazineAt (p * pageSize))
  refine ⟨{ g with
    use := update g.use ⟨p, 0⟩ (some .magazines)
    free := free'
    alloc := insert ⟨p, 0⟩ g.alloc
    shelf := update g.shelf .spare cells }, hr, ?_, hinv.stacked, ?_, hinv.loaded_cell,
    hinv.loc_eq_none, hinv.live_cases⟩
  · exact hinv.stocked.withMags _ _
  · intro i a hai
    change a ∈ update g.shelf .spare cells i at hai
    by_cases hi : i = .spare
    · subst hi
      obtain ⟨j, hj, rfl⟩ := List.mem_map.mp hai
      exact ⟨p, j, update_self .., List.mem_range.mp hj, rfl⟩
    · rw [update_of_ne hi] at hai
      exact hinv.shelf_cell i a hai

theorem live_eq_none {b : Block} (hb : b ∈ g.alloc) (hnone : g.use b = none)
    (hx : x / pageSize ∈ b.pages) : live x = none := by
  by_contra hne
  obtain ⟨n, hn⟩ := Option.ne_none_iff_exists'.mp hne
  obtain ⟨-, b', hb', hmem⟩ := h.extent hn
  have heq : b' = b := h.stocked.wf.shape.apart.eq_of_mem (.inr (h.stocked.use_alloc b' hb'))
    (.inr hb) (hmem 0 (s.oldSize_pos _)) hx
  exact hb' (heq ▸ hnone)

end

/-- What an operation on the depots leaves alone besides. -/
structure SameRacks (s s' : KmemHeap) : Prop extends HeapKept s s' where
  magazine : s'.magazine = s.magazine
  magazines : s'.magazines = s.magazines

theorem le_orderFor {pages n order : ℕ} (h : pages ≤ 2 ^ (order + n)) :
    pages ≤ 2 ^ orderFor pages n order := by
  induction n generalizing order with
  | zero => exact h
  | succ n ih =>
    unfold orderFor
    split_ifs with hlt
    · apply ih
      rwa [show order + 1 + n = order + (n + 1) by omega]
    · omega

section
variable (h : HeapInv s tbl live g)
include h

theorem cutObject (hrem : (s.depots k).objsRemaining ≠ 0) :
    ∃ s' x, s.cutObject k = some (s', some x) ∧ live x = none ∧
      HeapSound s' tbl (update live x (some 0)) ∧ SameRacks s s' ∧
      s'.objSize (x / pageSize) = kmemClassSizes k := by
  obtain ⟨d, fc, x, he, hlists, hkind, hs⟩ := h.stocked.cutObject hrem
  have hloc := h.loc_of_kind hkind
  have hlive : live x = none := by
    by_contra hne
    -- the page of `x` has an object size, so a live block there would have been cut
    have hsize := hs.objSize_of_kind (update_self x (some k) g.kind)
    obtain ⟨k', hk', -⟩ := h.kind_of_live hne (by
      rw [hsize]
      exact (kmemClassSizes_pos k).ne')
    simp [hkind] at hk'
  have hnot (a y : ℕ) (hy : y ∈ g.contents a) : y ≠ x := by
    rintro rfl
    exact h.kind_of_mem hy hkind
  refine ⟨_, x, he, hlive, ⟨{ g with kind := update g.kind x (some k) }, ?_, hs, h.stacked,
    h.shelf_cell, h.loaded_cell, ?_, ?_⟩, ⟨⟨rfl, le_rfl, rfl⟩, rfl, rfl⟩,
    hs.objSize_of_kind (update_self ..)⟩
  · refine h.racked.congr rfl rfl hlists.update ?_
    intro a y hy
    exact update_of_ne (hnot a y hy) ..
  · intro y hy
    by_cases hyx : y = x
    · subst hyx
      simp [hloc]
    · simp only [update_of_ne hyx] at hy ⊢
      exact h.loc_eq_none y hy
  · intro y n hy
    by_cases hyx : y = x
    · subst hyx
      rw [update_self] at hy
      cases hy
      exact .inl ⟨k, update_self .., Nat.zero_le _⟩
    · rw [update_of_ne hyx] at hy
      rcases h.live_cases y n hy with ⟨k', hk', hn⟩ | hl
      · refine .inl ⟨k', ?_, hn⟩
        simp only [update_of_ne hyx]
        exact hk'
      · exact .inr hl

theorem kmemDepotRefill (k : KmemClass) :
    ∃ s' r, s.kmemDepotRefill k = some (s', r) ∧ SameRacks s s' ∧
      (r = none → HeapSound s' tbl live ∧ s.failures < s'.failures) ∧
      ∀ x, r = some x → live x = none ∧ HeapSound s' tbl (update live x (some 0)) ∧
        s'.objSize (x / pageSize) = kmemClassSizes k := by
  unfold KmemHeap.kmemDepotRefill
  by_cases hrem : (s.depots k).objsRemaining = 0
  · rw [if_pos hrem]
    simp only
    rcases pmmAllocPages_spec h.stocked.wf (s.depots k).currentOrder with
      ⟨pmm, free', p, he, ha⟩ | ⟨he, -⟩
    · obtain ⟨hs, hnone⟩ := h.stocked.pmmAllocPages he ha
      have hr0 := h.racked.withPmm pmm s.objSize
      obtain ⟨t, ht, hst, hrem', hoom, hmag, hfree, hmags, hbyte, htotal, hlists⟩ :=
        hs.newChunk (h.stocked.order_eq k) (Set.mem_insert _ _) hnone
      have hr : Racked t tbl g.kind g.shelf g.contents :=
        hr0.congr hmag hfree hlists fun _ _ _ => rfl
      have hkept : HeapKept s t := by
        refine ⟨hbyte, ?_, htotal.trans ha.totalPages⟩
        unfold KmemHeap.failures
        rw [hoom]
        exact (congrArg List.length ha.outOfMemory).ge
      obtain ⟨s', x, hcut, hlive, hsound, hsame, hsize⟩ := (h.assigned hnone hr hst).cutObject hrem'
      refine ⟨s', some x, ?_, ⟨hkept.trans hsame.toHeapKept, hsame.magazine.trans hmag,
        hsame.magazines.trans hmags⟩, nofun, ?_⟩
      · rw [he]
        simp only
        rw [ht]
        exact hcut
      · rintro y hy
        cases hy
        exact ⟨hlive, hsound, hsize⟩
    · let t : KmemHeap := { s with pmm := { s.pmm with
        outOfMemory := s.pmm.outOfMemory ++ [(s.depots k).currentOrder] } }
      have hlt : s.failures < t.failures := by simp [KmemHeap.failures, t]
      refine ⟨t, none, by rw [he], ⟨⟨rfl, hlt.le, rfl⟩, rfl, rfl⟩, fun _ => ⟨⟨g, h.outOfMemory _⟩, hlt⟩,
        nofun⟩
  · rw [if_neg hrem]
    obtain ⟨s', x, he, hlive, hsound, hsame, hsize⟩ := h.cutObject hrem
    refine ⟨s', some x, he, hsame, nofun, ?_⟩
    rintro y hy
    cases hy
    exact ⟨hlive, hsound, hsize⟩

theorem newLarge {o p n : ℕ} {pmm : Pmm} {free' : ℕ → List ℕ}
    (he : s.pmm.pmmAllocPages o = some (pmm, some p))
    (ha : Allocated s.pmm g.free g.alloc o pmm free' p) (hn : n ≤ pageSize <<< o) :
    Pmm.pageToPhys p = p * pageSize ∧ live (p * pageSize) = none ∧ HeapSound { s with
        pmm := pmm.modify p fun q => { q with order := o }
        objSize := update s.objSize p 0 } tbl
        (update live (p * pageSize) (some n)) := by
  obtain ⟨hs, hnone⟩ := h.stocked.pmmAllocPages he ha
  have hmem : (⟨p, o⟩ : Block) ∈ insert ⟨p, o⟩ g.alloc := Set.mem_insert _ _
  have hdiv : p * pageSize / pageSize = p := Nat.mul_div_cancel _ (by decide)
  have hpage : p * pageSize / pageSize ∈ (Block.mk p o).pages := by
    rw [hdiv]
    exact Block.head_mem ⟨p, o⟩
  have hr := h.racked.withPmm pmm s.objSize
  have h1 : HeapInv { s with pmm := pmm } tbl live
      { g with free := free', alloc := insert ⟨p, o⟩ g.alloc } :=
    { h with racked := hr, stocked := hs }
  have hlive : live (p * pageSize) = none := h1.live_eq_none hmem hnone hpage
  have hkind : g.kind (p * pageSize) = none := hs.kind_eq_none hmem hnone hpage
  have hout (y : ℕ) (hy : y ∉ (Block.mk p o).pages) :
      update s.objSize p 0 y = s.objSize y := by
    apply update_of_ne
    rintro rfl
    exact hy (Block.head_mem ⟨y, o⟩)
  have hass := hs.assign (f := fun q => { q with order := o }) hmem hnone .large (fun _ hq => hq)
    hout (nofun) fun _ => ⟨update_self .., rfl⟩
  have hr' := h.racked.withPmm (pmm.modify p fun q => { q with order := o }) (update s.objSize p 0)
  have h2 := h.assigned hnone hr' hass
  have hphys : Pmm.pageToPhys p = p * pageSize := hs.pageToPhys (b := ⟨p, o⟩) hmem
  refine ⟨hphys, hlive, ⟨_, h2.racked, h2.stocked, h2.stacked, h2.shelf_cell,
    h2.loaded_cell, fun x hx => ?_, fun x m hx => ?_⟩⟩
  · rw [update_of_ne]
    · exact h.loc_eq_none x hx
    · rintro rfl
      exact hx hkind
  · by_cases hxp : x = p * pageSize
    · subst hxp
      rw [update_self] at hx
      cases hx
      exact .inr ⟨⟨p, o⟩, update_self .., rfl, hn⟩
    · rw [update_of_ne hxp] at hx
      exact h2.live_cases x m hx

theorem kmemAllocLarge {size : BitVec 64} (hsize : size.toNat + 4095 < 2 ^ 64) :
    ∃ s' r, s.kmemAllocLarge size = some (s', r) ∧ HeapKept s s' ∧ s'.magazines = s.magazines ∧
      (r = none → HeapSound s' tbl live ∧ (2 ^ 22 < size.toNat ∨ s.failures < s'.failures)) ∧
      ∀ x, r = some x → live x = none ∧ HeapSound s' tbl (update live x (some size.toNat)) := by
  have hpages : ((size + 4096 - 1) / 4096).toNat = (size.toNat + 4095) / 4096 := by
    have hsum : (size + 4096 - 1).toNat = size.toNat + 4095 := by bv_omega
    rw [BitVec.toNat_udiv, hsum]
    rfl
  unfold KmemHeap.kmemAllocLarge
  simp only [hpages]
  have hmax : 1 <<< (maxOrder - 1) = 1024 := rfl
  rw [hmax]
  by_cases hbig : 1024 < (size.toNat + 4095) / 4096
  · rw [if_pos hbig]
    refine ⟨s, none, rfl, .refl s, rfl, fun _ => ⟨⟨g, h⟩, .inl ?_⟩, by simp⟩
    omega
  · rw [if_neg hbig]
    let o := orderFor ((size.toNat + 4095) / 4096) maxOrder 0
    have ho : (size.toNat + 4095) / 4096 ≤ 2 ^ o := le_orderFor (by simp [maxOrder]; omega)
    have hn : size.toNat ≤ pageSize <<< o := by
      rw [pageSize]
      omega
    rcases pmmAllocPages_spec h.stocked.wf o with ⟨pmm, free', p, he, ha⟩ | ⟨he, -⟩
    · obtain ⟨hphys, hlive, hsound⟩ := h.newLarge he ha hn
      let t : KmemHeap := { s with
        pmm := pmm.modify p fun q => { q with order := o }
        objSize := update s.objSize p 0 }
      refine ⟨t, some (p * pageSize), ?_, ⟨rfl, ?_, ha.totalPages⟩, rfl, by simp, ?_⟩
      · rw [he, ← hphys]
      · exact (congrArg List.length ha.outOfMemory).ge
      · intro x hx
        cases hx
        exact ⟨hlive, hsound⟩
    · let t : KmemHeap := { s with pmm := { s.pmm with outOfMemory := s.pmm.outOfMemory ++ [o] } }
      have hlt : s.failures < t.failures := by simp [KmemHeap.failures, t]
      exact ⟨t, none, by rw [he], ⟨rfl, hlt.le, rfl⟩, rfl, fun _ => ⟨⟨g, h.outOfMemory _⟩, .inr hlt⟩,
        by simp⟩

theorem freeLarge (hx : live x ≠ none)
    (hsize : s.objSize (x / pageSize) = 0) :
    HeapSound { s with
      pmm := s.pmm.pmmFreePages (x / pageSize) (s.pmm.page (x / pageSize)).order } tbl
        (update live x none) ∧
      (s.pmm.pmmFreePages (x / pageSize) (s.pmm.page (x / pageSize)).order).outOfMemory =
        s.pmm.outOfMemory ∧
      (s.pmm.pmmFreePages (x / pageSize) (s.pmm.page (x / pageSize)).order).totalPages =
        s.pmm.totalPages := by
  obtain ⟨b, hb, hxb, hdiv, hord⟩ := h.large_of_live hx hsize
  obtain ⟨free', hs⟩ := h.stocked.freeLarge hb
  obtain ⟨free1, hf⟩ := pmmFreePages_spec h.stocked.wf (h.stocked.use_alloc b (by rw [hb]; simp))
  rw [hord, hdiv]
  have hkeep {b' : Block} {v : BlockUse} (hb' : g.use b' = some v) (hne : b' ≠ b) :
      update g.use b none b' = some v := by
    rw [update_of_ne hne]
    exact hb'
  have hcell {a : ℕ} (ha : IsCell g.use a) : IsCell (update g.use b none) a := by
    obtain ⟨p, i, hp, hi, rfl⟩ := ha
    refine ⟨p, i, hkeep hp ?_, hi, rfl⟩
    rintro rfl
    simp [hp] at hb
  refine ⟨⟨{ g with use := update g.use b none, free := free', alloc := g.alloc \ {b} },
    ?_, hs, h.stacked, fun i a ha => hcell (h.shelf_cell i a ha),
    fun c k a ha => hcell (h.loaded_cell c k a ha), fun y hy => ?_, fun y n hy => ?_⟩,
    hf.keeps.outOfMemory, hf.keeps.totalPages⟩
  · exact h.racked.withPmm _ _
  · rw [update_of_ne]
    · exact h.loc_eq_none y hy
    · rintro rfl
      obtain ⟨k, hk⟩ := Option.ne_none_iff_exists'.mp hy
      rw [h.stocked.objSize_of_kind hk] at hsize
      exact (kmemClassSizes_pos k).ne' hsize
  · by_cases hyx : y = x
    · subst hyx
      simp at hy
    · rw [update_of_ne hyx] at hy
      rcases h.live_cases y n hy with hk | ⟨b', hb', hyb, hn⟩
      · exact .inl hk
      · refine .inr ⟨b', hkeep hb' ?_, hyb, hn⟩
        rintro rfl
        exact hyx (hyb.trans hxb.symm)

end

end HeapInv
end Doppio
