import Doppio.Mmu.GroveMap

/-! The invariant of all address spaces together, and what `vmm_get_pte` and `vmm_map` do to it. -/
namespace Doppio
open Function Option
open Buddy
namespace Mmu
open Pmm

def tables (kernelMap : ℕ) (place : Places) : Set ℕ := insert kernelMap {p | place p ≠ none}

/-- The maps in `live` are trees of tables, and all pages behind them are accounted for. -/
structure Inv (s : Mmu) (live : Set ℕ) (place : Places) (free : ℕ → List ℕ) (alloc : Set Block)
    (pages : Set ℕ) : Prop where
  placed : s.Placed place
  live_iff : ∀ m, m ∈ live ↔ place m = some (m, [])
  kernel : place s.kernelMap = none
  held : s.pmm.Held free alloc pages (tables s.kernelMap place) (s.mappings live)

variable {s s' : Mmu} {live live' : Set ℕ} {place place' : Places} {free free' : ℕ → List ℕ}
  {alloc alloc' : Set Block} {pages : Set ℕ} {t m i v n : ℕ} {π : List ℕ} {e : PtEntry}

theorem mappings_congr (h : s.Placed place) (h' : s'.Placed place')
    (hlive : ∀ m, m ∈ live ↔ place m = some (m, []))
    (hlive' : ∀ m, m ∈ live' ↔ place' m = some (m, [])) (hleaf : ∀ m v e, e.has ptePresent →
      ((∃ t, place' t = some (m, pagePath v) ∧ s'.entry t (v % 512) = e) ↔
        ∃ t, place t = some (m, pagePath v) ∧ s.entry t (v % 512) = e)) :
    s'.mappings live' = s.mappings live := by
  funext ⟨m, v⟩
  apply ext
  intro e
  rw [h.mappings_iff hlive, h'.mappings_iff hlive']
  by_cases he : e.has ptePresent
  · have := hleaf m v e he
    simp only [he, and_true]
    rw [this]
  · simp [he]

theorem Inv.table_mem (_ : s.Inv live place free alloc pages) (ht : place t = some (m, π)) :
    t ∈ tables s.kernelMap place := by
  right
  simp [ht]

section
variable (h : s.Inv live place free alloc pages)
include h

theorem Inv.table_alloc (ht : place t = some (m, π)) :
    ⟨t, 0⟩ ∈ alloc := h.held.keep_alloc t (h.table_mem ht)

theorem Inv.table_ne (ht : place t = some (m, π)) :
    ∀ k e, s.mappings live k = some e → e.frame ≠ t := h.held.keep_ne t (h.table_mem ht)

theorem Inv.fresh {p : ℕ} (hp : ⟨p, 0⟩ ∉ alloc) :
    place p = none ∧ p ≠ s.kernelMap := by
  constructor
  · by_contra hne
    exact hp (h.held.keep_alloc p (.inr hne))
  · intro he
    exact hp (h.held.keep_alloc p (.inl he))

end

theorem incRef_eq {keep : Set ℕ} {A : Mappings} {p : ℕ} (h : s.pmm.Held free alloc pages keep A)
    (hp : ⟨p, 0⟩ ∈ alloc) : s.incRef (p * pageSize) =
      s.modifyPage p fun q => { q with refCount := q.refCount + 1 } := by
  unfold incRef
  rw [h.physToPage hp]

/-- What stays when tables and frames are added, in at most `n` pages. -/
structure Extends (n : ℕ) (s : Mmu) (place : Places) (free : ℕ → List ℕ) (alloc : Set Block)
    (s' : Mmu) (place' : Places) (free' : ℕ → List ℕ) (alloc' : Set Block) : Prop where
  place_eq : ∀ p, ⟨p, 0⟩ ∈ alloc → place' p = place p
  alloc_sub : alloc ⊆ alloc'
  kernelMap : s'.kernelMap = s.kernelMap
  free_sub : freePages free' ⊆ freePages free
  room : (freePages free).ncard ≤ (freePages free').ncard + n

theorem Extends.place_some {p : ℕ} {x : ℕ × List ℕ} (h : s.Inv live place free alloc pages)
    (hx : Extends n s place free alloc s' place' free' alloc') (hp : place p = some x) :
    place' p = some x := by
  rw [hx.place_eq p (h.table_alloc hp), hp]

/-- The walk of `vmm_get_pte`: new tables, the same mappings. -/
structure Grew (n : ℕ) (s : Mmu) (live : Set ℕ) (place : Places) (free : ℕ → List ℕ)
    (alloc : Set Block) (pages : Set ℕ) (s' : Mmu) (place' : Places) (free' : ℕ → List ℕ)
    (alloc' : Set Block) : Prop extends Extends n s place free alloc s' place' free' alloc' where
  inv : s'.Inv live place' free' alloc' pages
  mappings_eq : s'.mappings live = s.mappings live
  refCount : ∀ x, ⟨x, 0⟩ ∈ alloc → place x = none →
    (s'.pmm.page x).refCount = (s.pmm.page x).refCount

section
variable (h : s.Inv live place free alloc pages)
include h

theorem Inv.grove : Grove UserIdx False s place free alloc :=
  ⟨placed_iff.mp h.placed, h.held.wf, h.held.total_le, fun _ _ hp => h.table_alloc hp⟩

theorem Inv.frame_place {k : ℕ × ℕ} (hk : s.mappings live k = some e) : place e.frame = none := by
  by_contra hne
  exact h.held.keep_ne _ (.inr hne) k e hk rfl

theorem Inv.grown {is : List ℕ}
    (hg : Grown UserIdx False s place alloc m π is s' place' free' alloc')
    (ht : Took n free alloc free' alloc') (hlen : π.length + is.length ≤ 3) :
    Grew n s live place free alloc pages s' place' free' alloc' := by
  have hplaced := placed_iff.mpr hg.forest
  have hlive (x : ℕ) : x ∈ live ↔ place' x = some (x, []) :=
    (h.live_iff x).trans (hg.root_iff h.grove).symm
  have hmap : s'.mappings live = s.mappings live := by
    apply mappings_congr h.placed hplaced h.live_iff hlive
    intro m' v e he
    have hleaf : Leaf s' place' m' (pagePath v) (v % 512) e ↔ Leaf s place m' (pagePath v) (v % 512) e :=
      hg.leaf_iff h.grove hlen rfl
    simpa only [Leaf, he, and_true] using hleaf
  have hkernel : place' s'.kernelMap = none := by
    rw [hg.kernelMap, hg.place_eq _ (h.held.keep_alloc _ (.inl rfl))]
    exact h.kernel
  refine ⟨⟨hg.place_eq, hg.alloc_sub, hg.kernelMap, ht.free_sub, ht.room⟩,
    ⟨hplaced, hlive, hkernel, hg.wf, ht.cover_eq.trans h.held.cover_eq, hg.total_le, ?_, ?_, ?_, ?_,
      ?_⟩, hmap, hg.refCount⟩
  · rintro p (rfl | hp)
    · rw [hg.kernelMap]
      exact hg.alloc_sub (h.held.keep_alloc _ (.inl rfl))
    · obtain ⟨x, hx⟩ := ne_none_iff_exists'.mp hp
      exact hg.table_alloc p x hx
  · rintro p hp k e hk rfl
    rw [hmap] at hk
    refine h.held.keep_ne e.frame ?_ k e hk rfl
    rcases hp with hp | hp
    · exact .inl (hp.trans hg.kernelMap)
    · change place' e.frame ≠ none at hp
      rw [hg.place_eq _ (h.held.named_alloc k e hk)] at hp
      exact .inr hp
  · rw [hmap]
    exact h.held.finite
  · intro k e hk
    rw [hmap] at hk
    exact hg.alloc_sub (h.held.named_alloc k e hk)
  · intro k e hk
    rw [hmap] at hk ⊢
    rw [hg.refCount _ (h.held.named_alloc k e hk) (h.frame_place hk)]
    exact h.held.refCount k e hk

theorem vmmGetPte_spec (hm : m ∈ live) {virt : ℕ} (hv : virt / pageSize < userPages) :
    ∃ s' r place' free' alloc', s.vmmGetPte m virt true =
        some (s', r.map fun t => (t, virt / pageSize % 512)) ∧
      Grew 3 s live place free alloc pages s' place' free' alloc' ∧
      (∀ t, r = some t → place' t = some (m, pagePath (virt / pageSize))) ∧
      (r = none → freePages free' = ∅) := by
  obtain ⟨s', r, place', free', alloc', he, hg, hr, hn, ht⟩ := vmmGetPteLoop_grown
    (pagePath (virt / pageSize)) h.grove ((h.live_iff m).mp hm) (ownPath_pagePath hv)
    (by simp [pagePath])
  refine ⟨s', r, place', free', alloc', ?_, h.grown hg ht (by simp [pagePath]), hr,
    fun hr => (hn hr).resolve_right id⟩
  unfold vmmGetPte
  rw [(pageIdx_eq virt).1, he, (pageIdx_eq virt).2]
  rfl

end

theorem Placed.setLeaf (h : s.Placed place) (ht : place t = some (m, pagePath v)) (j : ℕ)
    (e : PtEntry) : (s.setEntry t j e).Placed place := by
  apply h.congr
  intro q m' π' i hq hlen _
  rw [setEntry_entry, if_neg]
  · exact ⟨rfl, rfl, rfl⟩
  · rintro ⟨rfl, -⟩
    rw [ht] at hq
    cases hq
    simp [pagePath] at hlen

theorem Placed.mappings_setLeaf (h : s.Placed place)
    (hlive : ∀ m, m ∈ live ↔ place m = some (m, [])) (ht : place t = some (m, pagePath v))
    (hv : v < userPages) (e : PtEntry) :
    (s.setEntry t (v % 512) e).mappings live =
      update (s.mappings live) (m, v) (if e.has ptePresent then some e else none) := by
  funext ⟨m', v'⟩
  apply ext
  intro e'
  rw [(h.setLeaf ht (v % 512) e).mappings_iff hlive]
  by_cases hk : (m', v') = (m, v)
  · obtain ⟨rfl, rfl⟩ := Prod.mk.inj hk
    rw [update_self]
    constructor
    · rintro ⟨-, t', ht', rfl, hp⟩
      obtain rfl := h.inj ht' ht
      simp only [setEntry_entry, and_self, if_true] at hp ⊢
      rw [if_pos hp]
    · intro he
      split_ifs at he with hp
      cases he
      exact ⟨hv, t, ht, by simp, hp⟩
  · rw [update_of_ne hk, h.mappings_iff hlive]
    have hent (t' : ℕ) (ht' : place t' = some (m', pagePath v')) (hv' : v' < userPages) :
        (s.setEntry t (v % 512) e).entry t' (v' % 512) = s.entry t' (v' % 512) := by
      rw [setEntry_entry, if_neg]
      rintro ⟨rfl, hmod⟩
      obtain ⟨rfl, hpath⟩ := Prod.mk.inj (some.inj (ht'.symm.trans ht))
      exact hk (by rw [pagePath_inj hv' hv hpath hmod])
    constructor
    · rintro ⟨hv', t', ht', he, hp⟩
      rw [hent t' ht' hv'] at he
      exact ⟨hv', t', ht', he, hp⟩
    · rintro ⟨hv', t', ht', he, hp⟩
      exact ⟨hv', t', ht', by rw [hent t' ht' hv', he], hp⟩

theorem leafEntry_spec {f : ℕ} {flags : PtEntry} (hf : f < 2 ^ 40)
    (hflags : flags &&& pageAddrMask = 0) :
    (BitVec.ofNat 64 (f * pageSize) &&& pageAddrMask) ||| flags = PtEntry.ofPage f ||| flags ∧
      (PtEntry.ofPage f ||| flags).frame = f := by
  constructor
  · congr 1
    exact PtEntry.ofPage_and_mask hf
  · rw [PtEntry.frame_or _ hflags, PtEntry.frame_ofPage hf]

theorem vmmMap_spec (h : s.Inv live place free alloc pages) (hm : m ∈ live) {virt f : ℕ}
    {flags : PtEntry} (hv : virt / pageSize < userPages)
    (hnone : s.mappings live (m, virt / pageSize) = none) (hf : ⟨f, 0⟩ ∈ alloc)
    (hfp : f ∉ tables s.kernelMap place)
    (hcount : (s.pmm.page f).refCount = BitVec.ofNat 32 (refs (s.mappings live) f))
    (hflags : flags &&& pageAddrMask = 0) (hpres : flags.has ptePresent) :
    ∃ s' ok place' free' alloc', s.vmmMap m virt (f * pageSize) flags = some (s', ok) ∧
      s'.Inv live place' free' alloc' pages ∧ Extends 3 s place free alloc s' place' free' alloc' ∧
      s'.mappings live = (if ok then
        update (s.mappings live) (m, virt / pageSize) (some (PtEntry.ofPage f ||| flags))
        else s.mappings live) ∧ (ok = false → freePages free' = ∅) := by
  obtain ⟨s1, r, place1, free1, alloc1, he, hg, hr, hn⟩ := vmmGetPte_spec h hm hv
  unfold vmmMap
  rw [he]
  cases r with
  | none =>
    exact ⟨s1, false, place1, free1, alloc1, rfl, hg.inv, hg.toExtends, hg.mappings_eq,
      fun _ => hn rfl⟩
  | some t =>
    have ht := hr t rfl
    have hi1 := hg.inv
    have hf1 := hg.alloc_sub hf
    have hlt : f < 2 ^ 40 := lt_of_lt_of_le (h.held.lt_total hf) h.held.total_le
    obtain ⟨hentry, hframe⟩ := leafEntry_spec hlt hflags
    -- the slot is empty, since the page is not mapped
    have hslot : (s1.entry t (virt / pageSize % 512)).has ptePresent = false := by
      by_contra hp
      rw [Bool.not_eq_false] at hp
      have := (hi1.placed.mappings_iff hi1.live_iff).mpr ⟨hv, t, ht, rfl, hp⟩
      simp [hg.mappings_eq, hnone] at this
    have hfp1 : f ∉ tables s1.kernelMap place1 := by
      rw [hg.kernelMap]
      rintro (hc | hc)
      · exact hfp (.inl hc)
      · change place1 f ≠ none at hc
        rw [hg.place_eq f hf] at hc
        exact hfp (.inr hc)
    have hft : f ≠ t := by
      rintro rfl
      exact hfp1 (hi1.table_mem ht)
    let s2 := s1.modifyPage t fun q => { q with refCount := q.refCount + 1 }
    let s3 := s2.setEntry t (virt / pageSize % 512) (PtEntry.ofPage f ||| flags)
    let s4 := s3.modifyPage f fun q => { q with refCount := q.refCount + 1 }
    have hheld2 : s2.pmm.Held free1 alloc1 pages (tables s1.kernelMap place1) (s1.mappings live) :=
      hi1.held.modify (fun q => { q with refCount := q.refCount + 1 }) (hi1.table_alloc ht)
        (hi1.table_ne ht) fun q => rfl
    have hcount2 : (s2.pmm.page f).refCount = BitVec.ofNat 32 (refs (s1.mappings live) f) := by
      have hpn : place f = none := by
        by_contra hc
        exact hfp (.inr hc)
      rw [hg.mappings_eq, ← hcount, ← hg.refCount f hf hpn]
      simp [s2, hft]
    have hnone1 : s1.mappings live (m, virt / pageSize) = none := by rw [hg.mappings_eq, hnone]
    have hheld4 := hheld2.name (e := PtEntry.ofPage f ||| flags) hnone1 (by rw [hframe]; exact hf1)
      (by rw [hframe]; exact hfp1) (by rw [hframe]; exact hcount2)
    rw [hframe] at hheld4
    have hmap : s4.mappings live = update (s1.mappings live) (m, virt / pageSize)
        (some (PtEntry.ofPage f ||| flags)) := by
      have := hi1.placed.mappings_setLeaf hi1.live_iff ht hv (PtEntry.ofPage f ||| flags)
      rw [if_pos (by rw [PtEntry.has_or, hpres, Bool.or_true])] at this
      exact this
    refine ⟨s4, true, place1, free1, alloc1, ?_, ⟨?_, hi1.live_iff, hi1.kernel, ?_⟩,
      { hg.toExtends with kernelMap := hg.kernelMap }, ?_, ?_⟩
    · simp only [map_some, bind_eq_bind, bind_some, hslot, Bool.false_eq_true,
        if_false, hentry, pure_def, some.injEq, Prod.mk.injEq, and_true]
      rw [incRef_eq hi1.held (hi1.table_alloc ht)]
      exact incRef_eq (s := s3) hheld2 hf1
    · exact (hi1.placed.setLeaf ht _ _).congr fun _ _ _ _ _ _ _ => ⟨rfl, rfl, rfl⟩
    · rw [hmap]
      exact hheld4
    · rw [hmap, hg.mappings_eq]
      rfl
    · nofun

end Mmu
end Doppio
