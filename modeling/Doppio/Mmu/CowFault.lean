import Doppio.Mmu.DestroyMap

/-! The copy-on-write branch of `handle_page_fault` on the address spaces. -/
namespace Doppio
open Function
open Buddy Option
namespace Mmu
open Pmm

variable {s : Mmu} {live : Set ℕ} {place : Places} {free : ℕ → List ℕ} {alloc : Set Block}
  {pages : Set ℕ} {m t v : ℕ} {e : PtEntry}

theorem writablePte_spec (page e : PtEntry) :
    (writablePte page e).frame = page.frame ∧
      (e.has ptePresent → (writablePte page e).has ptePresent) := by
  unfold writablePte
  constructor
  · apply PtEntry.frame_or
    rw [BitVec.and_or_distrib_right, BitVec.and_assoc, BitVec.and_comm (~~~pteCow),
      ← BitVec.and_assoc, e.compl_mask_and_mask]
    decide
  · intro hp
    rw [PtEntry.has_or, PtEntry.has_or, PtEntry.has_and,
      show ~~~pteCow &&& ptePresent = ptePresent by decide,
      e.compl_mask_has (show ~~~pageAddrMask &&& ptePresent = ptePresent by decide), hp]
    simp

/-- A page with two entries still has no writer, and no frame loses its last entry. -/
structure Resolved (s : Mmu) (live : Set ℕ) (place : Places) (pages : Set ℕ) (s' : Mmu)
    (free' : ℕ → List ℕ) (alloc' : Set Block) : Prop where
  inv : s'.Inv live place free' alloc' pages
  cow : CowSafe (s'.mappings live)
  named : ∀ f, 0 < refs (s.mappings live) f → 0 < refs (s'.mappings live) f

theorem Inv.makeWritable (h : s.Inv live place free alloc pages) (hcow : CowSafe (s.mappings live))
    (ht : place t = some (m, pagePath v)) (hk : s.mappings live (m, v) = some e)
    (hone : refs (s.mappings live) e.frame = 1) :
    Resolved s live place pages
      (s.setEntry t (v % 512) (writablePte (e &&& pageAddrMask) e)) free alloc := by
  obtain ⟨hv, -, -, -, hpe⟩ := (h.placed.mappings_iff h.live_iff).mp hk
  obtain ⟨hframe, hpres⟩ := writablePte_spec (e &&& pageAddrMask) e
  rw [PtEntry.frame_mask] at hframe
  have hmap := h.placed.mappings_setLeaf h.live_iff ht hv (writablePte (e &&& pageAddrMask) e)
  rw [if_pos (hpres hpe)] at hmap
  constructor
  · refine ⟨h.placed.setLeaf ht _ _, h.live_iff, h.kernel, ?_⟩
    rw [hmap]
    exact h.held.retag hk hframe
  · rw [hmap]
    apply hcow.update
    intro k' g hne hg hf
    exact absurd (Naming.eq_of_count_eq_one hone hg (hf.trans hframe) hk rfl) hne
  · intro f hpos
    rw [hmap]
    have : refs (update (s.mappings live) (m, v) _) f = refs (s.mappings live) f :=
      Naming.count_replace hk hframe f
    rw [this]
    exact hpos

theorem copyPages_one_entry (s : Mmu) {dst p : ℕ} (src : ℕ) (hp : p ≠ dst) :
    (s.copyPages dst src 1).entry p = s.entry p := by
  unfold copyPages
  simp only
  rw [if_neg (by omega)]

theorem Inv.copyFresh {p : ℕ} (h : s.Inv live place free alloc pages) (pmm1 : Pmm)
    (hp : place p = none) (src : ℕ) :
    (({ s with pmm := pmm1 } : Mmu).copyPages p src 1).Placed place ∧
      (({ s with pmm := pmm1 } : Mmu).copyPages p src 1).mappings live = s.mappings live := by
  have hne {q : ℕ} {x : ℕ × List ℕ} (hq : place q = some x) : q ≠ p := by
    rintro rfl
    simp [hp] at hq
  have hplaced : (({ s with pmm := pmm1 } : Mmu).copyPages p src 1).Placed place := by
    apply h.placed.congr
    intro q m π i hq _ _
    rw [copyPages_one_entry _ _ (hne hq)]
    exact ⟨rfl, rfl, rfl⟩
  refine ⟨hplaced, ?_⟩
  apply mappings_congr h.placed hplaced h.live_iff h.live_iff
  intro m v e _
  constructor
  · rintro ⟨q, hq, he⟩
    rw [copyPages_one_entry _ _ (hne hq)] at he
    exact ⟨q, hq, he⟩
  · rintro ⟨q, hq, he⟩
    refine ⟨q, hq, ?_⟩
    rw [copyPages_one_entry _ _ (hne hq)]
    exact he

/-- The entry gets the frame `p`, and the counts follow. -/
def replaceFrame (s : Mmu) (t i old p : ℕ) : Mmu :=
  let s := s.setEntry t i (writablePte (PtEntry.ofPage p) (s.entry t i))
  let s := s.modifyPage old fun q => { q with refCount := q.refCount - 1 }
  s.modifyPage p fun q => { q with refCount := q.refCount + 1 }

theorem Inv.copyFrame {pmm1 : Pmm} {free1 : ℕ → List ℕ} {p : ℕ}
    (h : s.Inv live place free alloc pages) (hcow : CowSafe (s.mappings live))
    (ht : place t = some (m, pagePath v)) (hk : s.mappings live (m, v) = some e)
    (hmany : 1 < refs (s.mappings live) e.frame)
    (hheld : pmm1.Held free1 (insert ⟨p, 0⟩ alloc) pages (tables s.kernelMap place)
      (s.mappings live)) (hfresh : ⟨p, 0⟩ ∉ alloc) (hcount : (pmm1.page p).refCount = 0) :
    Resolved s live place pages
      ((({ s with pmm := pmm1 } : Mmu).copyPages p e.frame 1).replaceFrame t (v % 512) e.frame p)
      free1 (insert ⟨p, 0⟩ alloc) := by
  obtain ⟨hpn, hpk⟩ := h.fresh hfresh
  obtain ⟨hv, t', ht', hte, hpe⟩ := (h.placed.mappings_iff h.live_iff).mp hk
  obtain rfl := h.placed.inj ht ht'
  have htp : t ≠ p := by
    rintro rfl
    simp [hpn] at ht
  have hlt : p < 2 ^ 40 := lt_of_lt_of_le (hheld.lt_total (Set.mem_insert _ _)) hheld.total_le
  obtain ⟨hframe, hpres⟩ := writablePte_spec (PtEntry.ofPage p) e
  rw [PtEntry.frame_ofPage hlt] at hframe
  have hunnamed (k : ℕ × ℕ) (g : PtEntry) (hg : s.mappings live k = some g) : g.frame ≠ p := by
    rintro rfl
    exact hfresh (h.held.named_alloc k g hg)
  obtain ⟨hplaced, hsame⟩ := h.copyFresh pmm1 hpn e.frame
  let s1 := ({ s with pmm := pmm1 } : Mmu).copyPages p e.frame 1
  have hent : s1.entry t (v % 512) = e := by
    rw [copyPages_one_entry _ _ htp]
    exact hte
  have hmap : (s1.replaceFrame t (v % 512) e.frame p).mappings live =
      update (s.mappings live) (m, v) (some (writablePte (PtEntry.ofPage p) e)) := by
    have := hplaced.mappings_setLeaf h.live_iff ht hv (writablePte (PtEntry.ofPage p) e)
    rw [if_pos (hpres hpe), hsame] at this
    unfold replaceFrame
    rw [hent]
    exact this
  have hrefs (f : ℕ) : refs (update (s.mappings live) (m, v)
      (some (writablePte (PtEntry.ofPage p) e))) f =
        refs (update (s.mappings live) (m, v) none) f + if p = f then 1 else 0 := by
    have hfin := Naming.finite_update h.held.finite (k := (m, v)) none
    have hins : refs (update (update (s.mappings live) (m, v) none) (m, v)
        (some (writablePte (PtEntry.ofPage p) e))) f = _ :=
      Naming.count_insert hfin (update_self ..) _ f
    rw [update_idem, hframe] at hins
    exact hins
  have herase (f : ℕ) : refs (update (s.mappings live) (m, v) none) f +
      (if e.frame = f then 1 else 0) = refs (s.mappings live) f :=
    Naming.count_erase h.held.finite hk f
  constructor
  · refine ⟨(hplaced.setLeaf ht _ _).congr fun _ _ _ _ _ _ _ => ⟨rfl, rfl, rfl⟩, h.live_iff,
      h.kernel, ?_⟩
    rw [hmap]
    have hdrop := hheld.unname hk
    have hname := hdrop.name (k := (m, v)) (e := writablePte (PtEntry.ofPage p) e)
      (update_self ..) (by rw [hframe]; exact Set.mem_insert _ _) (by
        rw [hframe]
        rintro (hc | hc)
        · exact hpk hc
        · exact hc hpn) (by
        rw [hframe, modify_page, if_neg (hunnamed _ e hk).symm, hcount]
        have := herase p
        rw [if_neg (hunnamed _ e hk), Held.refs_eq_zero hunnamed, add_zero] at this
        rw [this]
        rfl)
    rw [update_idem, hframe] at hname
    exact hname
  · rw [hmap]
    apply hcow.update
    intro k' g _ hg hf
    exact absurd (hf.trans hframe) (hunnamed k' g hg)
  · intro f hpos
    rw [hmap, hrefs]
    have := herase f
    by_cases hf : e.frame = f
    · rw [if_pos hf] at this
      rw [hf] at hmany
      omega
    · rw [if_neg hf] at this
      omega

/-- The entry becomes the only one for its frame and writable, or there is no page for the copy. -/
theorem cowFault_spec (h : s.Inv live place free alloc pages) (hcow : CowSafe (s.mappings live))
    (hm : m ∈ live) {addr : ℕ} (hv : addr / pageSize < userPages)
    (hfew : ∀ f, refs (s.mappings live) f < 2 ^ 32) :
    (∃ s' ok free' alloc', s.cowFault m addr = some (s', ok) ∧
      Resolved s live place pages s' free' alloc') ∨
    (s.cowFault m addr = none ∧ freePages free = ∅) := by
  have hsame : Resolved s live place pages s free alloc := ⟨h, hcow, fun _ hp => hp⟩
  have hroot := (h.live_iff m).mp hm
  unfold cowFault
  rw [vmmGetPte_false]
  cases hd : s.descend m (pagePath (addr / pageSize)) with
  | none => exact .inl ⟨s, false, free, alloc, rfl, hsame⟩
  | some t =>
  have ht := (placed_iff.mp h.placed).place_of_descend hroot (ownPath_pagePath hv)
    (by simp [pagePath]) hd
  simp only [map_some, bind_eq_bind, bind_some]
  generalize he : s.entry t (addr / pageSize % 512) = e
  cases hp : e.has ptePresent with
  | false => exact .inl ⟨s, false, free, alloc, by simp, hsame⟩
  | true =>
  cases hc : e.has pteCow with
  | false => exact .inl ⟨s, false, free, alloc, by simp, hsame⟩
  | true =>
  have hk : s.mappings live (m, addr / pageSize) = some e :=
    (h.placed.mappings_iff h.live_iff).mpr ⟨hv, t, ht, he, hp⟩
  have halloc := h.held.named_alloc _ _ hk
  have hphys : s.pmm.physToPage e.addr = some e.frame := by
    rw [show e.addr = e.frame * pageSize from e.addr_eq]
    exact h.held.physToPage halloc
  have hlt (u : Pmm) (hu : (u.page e.frame).refCount = (s.pmm.page e.frame).refCount) :
      1 < (u.page e.frame).refCount ↔ 1 < refs (s.mappings live) e.frame := by
    rw [hu, h.held.refCount _ _ hk, BitVec.lt_def, BitVec.toNat_ofNat, Nat.mod_eq_of_lt (hfew _)]
    rfl
  simp only [Bool.and_self, hphys, hlt s.pmm rfl]
  by_cases hmany : 1 < refs (s.mappings live) e.frame
  · rw [if_pos hmany]
    unfold pageAlloc
    rcases h.held.pmmAllocPages with
      ⟨pmm1, free1, p, ha, hheld, hfresh, hzero, hrc, -⟩ | ⟨pmm1, ha, -, -, hempty⟩
    · left
      have hpn := (h.fresh hfresh).1
      have htp : t ≠ p := by
        rintro rfl
        simp [hpn] at ht
      have hep : e.frame ≠ p := by
        rintro rfl
        exact hfresh halloc
      have hent : (({ s with pmm := pmm1 } : Mmu).copyPages p e.frame 1).entry t
          (addr / pageSize % 512) = e := by
        rw [copyPages_one_entry _ _ htp]
        exact he
      have hagain : (({ s with pmm := pmm1 } : Mmu).copyPages p e.frame 1).descend m
          (pagePath (addr / pageSize)) = some t :=
        (h.copyFresh pmm1 hpn e.frame).1.descend_of_place hroot ht
      refine ⟨_, true, free1, _, ?_, h.copyFrame hcow ht hk hmany hheld hfresh hzero⟩
      rw [ha]
      simp only [bind_eq_bind, bind_some, pure_def, vmmGetPte_false, hagain,
        map_some, hent, hp, hc, and_self, if_true]
      rw [if_pos ((hlt (({ s with pmm := pmm1 } : Mmu).copyPages p e.frame 1).pmm
        (hrc _ hep)).mpr hmany)]
      unfold replaceFrame
      rw [hent]
    · right
      refine ⟨?_, hempty⟩
      rw [ha]
      rfl
  · rw [if_neg hmany]
    have hpos := h.held.refs_pos hk
    exact .inl ⟨_, true, free, alloc, rfl, h.makeWritable hcow ht hk (by omega)⟩

end Mmu
end Doppio
