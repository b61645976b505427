import Doppio.Mmu.CloneMap

/-! `mmu_unmap` on the address spaces: the entry goes, its frame with the last entry, and empty
tables. -/
namespace Doppio
open Function Option
open Buddy
namespace Mmu
open Pmm Loop

variable {s s' : Mmu} {live : Set ℕ} {place place' : Places} {free free' : ℕ → List ℕ}
  {alloc alloc' : Set Block} {pages keep : Set ℕ} {A : Mappings} {t m p : ℕ}

theorem pageFree_unmapped (h : s.pmm.Held free alloc pages keep A) (hp : ⟨p, 0⟩ ∈ alloc)
    (hne : ∀ k e, A k = some e → e.frame ≠ p) :
    ∃ pmm' free', s.pageFree (p * pageSize) 0 = some { s with pmm := pmm' } ∧
      pmm'.Held free' (alloc \ {⟨p, 0⟩}) pages (keep \ {p}) A := by
  obtain ⟨free', hf⟩ := h.pmmFreePages hp hne
  refine ⟨_, free', ?_, hf⟩
  unfold pageFree
  rw [h.physToPage hp]
  rfl

/-- A frame that some entry named is free exactly when none names it any more. -/
def Releases (A : Mappings) (alloc : Set Block) (A' : Mappings) : Prop :=
  ∀ f, 0 < refs A f → refs A' f = 0 → ⟨f, 0⟩ ∉ alloc

variable {e : PtEntry}

theorem Held.update_none_iff {k k' : ℕ × ℕ} :
    update A k none k' = some e ↔ k' ≠ k ∧ A k' = some e := by
  by_cases hk : k' = k
  · simp [hk]
  · simp [hk]

theorem frees_addr_iff {k : ℕ × ℕ} (h : s.pmm.Held free alloc pages keep A)
    (hk : A k = some e) (hfew : refs A e.frame < 2 ^ 32) :
    s.Frees e.addr p ↔ p = e.frame ∧ refs A e.frame = 1 := by
  have hpos := h.refs_pos hk
  have haddr : s.pmm.physToPage e.addr = some e.frame := by
    rw [show e.addr = e.frame * pageSize from e.addr_eq, h.physToPage (h.named_alloc k e hk)]
  unfold Frees
  rw [haddr, some.injEq, eq_comm]
  apply and_congr_right
  rintro rfl
  rw [h.refCount k e hk, BitVec.le_def, BitVec.toNat_ofNat]
  change _ ≤ 1 ↔ _
  omega

theorem Inv.held_unmapped {virt : ℕ} (h : s.Inv live place free alloc pages)
    (hk : s.mappings live (m, virt / pageSize) = some e)
    (hfew : refs (s.mappings live) e.frame < 2 ^ 32)
    (ht : ∀ phys o, s.unmapTarget m virt = some (phys, o) ↔ o = 0 ∧ e.addr = phys)
    (hu : Unmapped UserIdx False s place alloc m virt s' place' free' alloc')
    (hr : Returned s m virt free alloc free' alloc') :
    s'.pmm.Held free' alloc' pages (tables s'.kernelMap place')
      (update (s.mappings live) (m, virt / pageSize) none) := by
  have hun := h.held.unname hk
  have htarget := (ht e.addr 0).mpr ⟨rfl, rfl⟩
  -- a page that nothing names any more is the only one that goes back
  have hkept (x : ℕ) (hx : ⟨x, 0⟩ ∈ alloc) (hp : place x = none)
      (hne : x = e.frame → refs (s.mappings live) e.frame ≠ 1) : ⟨x, 0⟩ ∈ alloc' := by
    apply hu.alloc_kept ⟨x, 0⟩ hx fun _ => hp
    rintro phys o p hto hf hc
    obtain ⟨rfl, rfl⟩ := (ht phys o).mp hto
    obtain ⟨rfl, h1⟩ := (frees_addr_iff h.held hk hfew).mp hf
    exact hne (congrArg Block.head hc) h1
  refine ⟨hu.wf, hr.cover_eq.trans h.held.cover_eq, hu.total_le, ?_, ?_, hun.finite, ?_, ?_⟩
  · rintro p (rfl | hp)
    · rw [hu.kernelMap]
      refine hkept _ (h.held.keep_alloc _ (.inl rfl)) h.kernel fun hc => ?_
      exact absurd hc.symm (h.held.keep_ne _ (.inl rfl) _ e hk)
    · obtain ⟨x, hx⟩ := ne_none_iff_exists'.mp hp
      exact hu.table_alloc p x hx
  · rintro p (rfl | hp)
    · exact hun.keep_ne _ (.inl hu.kernelMap)
    · obtain ⟨x, hx⟩ := ne_none_iff_exists'.mp hp
      exact hun.keep_ne p (h.table_mem (hu.place_some p x hx))
  · intro k' e' hk'
    obtain ⟨hne, hold⟩ := Held.update_none_iff.mp hk'
    refine hkept _ (h.held.named_alloc k' e' hold) (h.frame_place hold) fun hc h1 => ?_
    exact hne (Naming.eq_of_count_eq_one h1 hold hc hk rfl)
  · intro k' e' hk'
    rw [hu.refCount _ (h.frame_place (Held.update_none_iff.mp hk').2), htarget]
    simp only
    rw [decRef_eq h.held hk hfew]
    exact hun.refCount k' e' hk'

theorem vmmUnmap_spec (h : s.Inv live place free alloc pages) (hm : m ∈ live) {virt : ℕ}
    (hv : virt / pageSize < userPages) (hfew : ∀ f, refs (s.mappings live) f < 2 ^ 32) :
    ∃ s' place' free' alloc', s.vmmUnmap m virt = some s' ∧ s'.Inv live place' free' alloc' pages ∧
      s'.mappings live = update (s.mappings live) (m, virt / pageSize) none ∧
      alloc' ⊆ alloc ∧ Releases (s.mappings live) alloc' (s'.mappings live) := by
  have hroot := (h.live_iff m).mp hm
  have hleaf (e : PtEntry) : s.mappings live (m, virt / pageSize) = some e ↔
      Leaf s place m (pagePath (virt / pageSize)) (virt / pageSize % 512) e :=
    (h.placed.mappings_iff h.live_iff).trans (and_iff_right hv)
  cases hk : s.mappings live (m, virt / pageSize) with
  | none =>
    rcases unmapTarget_cases h.grove (ownPath_pagePath hv) hroot with ⟨-, he, -⟩ | ⟨t, i, o, l, ht⟩
    · refine ⟨s, place, free, alloc, he, h, ?_, subset_rfl, fun f hpos hzero => by omega⟩
      rw [← hk, update_eq_self]
    · have hc := (hleaf _).mpr (ht.small.resolve_left id).2
      rw [hk] at hc
      cases hc
  | some e =>
    have ht (phys o : ℕ) : s.unmapTarget m virt = some (phys, o) ↔ o = 0 ∧ e.addr = phys := by
      rw [unmapTarget_iff h.grove hroot (ownPath_pagePath hv)]
      simp only [← hleaf, hk, some.injEq, exists_eq_left']
    have hfrees (p : ℕ) := frees_addr_iff (p := p) h.held hk (hfew _)
    obtain ⟨s', place', free', alloc', he, hu, hr⟩ := vmmUnmap_unmapped (fun π i hi => UserIdx.lt hi)
      h.grove hroot (ownPath_pagePath hv) (by
        intro phys o p hto hf
        obtain ⟨rfl, rfl⟩ := (ht phys o).mp hto
        obtain ⟨rfl, -⟩ := (hfrees p).mp hf
        exact ⟨h.held.named_alloc _ e hk, fun _ => h.frame_place hk⟩)
    have hplaced := placed_iff.mpr hu.forest
    have hlive (x : ℕ) : x ∈ live ↔ place' x = some (x, []) :=
      (h.live_iff x).trans ⟨hu.root x, hu.place_some x _⟩
    have hmap : s'.mappings live = update (s.mappings live) (m, virt / pageSize) none := by
      funext k
      apply ext
      intro e'
      rw [Held.update_none_iff, ← Prod.mk.eta (p := k), hplaced.mappings_iff hlive,
        h.placed.mappings_iff h.live_iff]
      have hl := hu.leaf_iff k.1 (pagePath k.2) (k.2 % 512) e' rfl (Nat.mod_lt _ (by decide))
      unfold Leaf at hl
      rw [hl]
      constructor
      · rintro ⟨hv', hle, hne⟩
        refine ⟨fun hc => hne ?_, hv', hle⟩
        rw [(Prod.mk.inj hc).1, (Prod.mk.inj hc).2]
      · rintro ⟨hne, hv', hle⟩
        refine ⟨hv', hle, fun hc => hne ?_⟩
        simp only [Prod.mk.injEq] at hc
        rw [hc.1, pagePath_inj hv' hv hc.2.1 hc.2.2]
    have hheld := h.held_unmapped hk (hfew _) ht hu hr
    refine ⟨s', place', free', alloc', he, ⟨hplaced, hlive, ?_, hmap ▸ hheld⟩, hmap,
      hr.alloc_sub, ?_⟩
    · rw [hu.kernelMap]
      cases hp : place' s.kernelMap with
      | none => rfl
      | some x =>
        rw [← hu.place_some _ x hp]
        exact h.kernel
    · intro f hpos hzero
      have hrefs : refs (update (s.mappings live) (m, virt / pageSize) none) f +
          (if e.frame = f then 1 else 0) = refs (s.mappings live) f :=
        Naming.count_erase h.held.finite hk f
      rw [← hmap, hzero] at hrefs
      split_ifs at hrefs with hf
      · subst hf
        exact hr.freed e.addr 0 e.frame ((ht _ _).mpr ⟨rfl, rfl⟩) ((hfrees _).mpr ⟨rfl, hrefs.symm⟩)
      · omega

end Mmu
end Doppio
