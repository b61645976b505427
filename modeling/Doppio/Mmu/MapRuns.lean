import Doppio.Mmu.CowRuns

/-! `mmu_map_4k` and `mmu_unmap` refine a partial map from pages to frames: `mmu_translate` answers
from the map that the calls have made. -/
namespace Doppio
open Function Option
open Buddy

/-- The maps, the frames that their user has from `page_alloc`, and the frame that each page was
mapped to. -/
structure UserMaps where
  mmu : Mmu
  live : Set ℕ
  owned : Set ℕ
  frameOf : ℕ × ℕ → Option ℕ

inductive MapCall where
  | pageAlloc
  | map4k (map page frame : ℕ) (prot : BitVec 64)
  | unmap (map page : ℕ)

namespace UserMaps
open Pmm Mmu

/-- Translation by a map from pages to frames; 0 is none. -/
def translateBy (T : ℕ × ℕ → Option ℕ) (map a : ℕ) : ℕ :=
  match T (map, a / pageSize) with
  | some f => f * pageSize + a % pageSize
  | none => 0

section
variable (st : UserMaps)

/-- One call without a failed allocation. The frame of the last page unmapped is given back. -/
def step : MapCall → Option UserMaps
  | .pageAlloc =>
    match st.mmu.pageAlloc 0 with
    | some (s, some f) => some { st with mmu := s, owned := insert f st.owned }
    | _ => none
  | .map4k map page f prot =>
    match st.mmu.mmuMap4k map (page * pageSize) (f * pageSize) prot with
    | some (s, true) =>
      some { st with mmu := s, frameOf := update st.frameOf (map, page) (some f) }
    | _ => none
  | .unmap map page =>
    match st.mmu.vmmUnmap map (page * pageSize) with
    | some s =>
      let frameOf := update st.frameOf (map, page) none
      some { st with
        mmu := s
        owned := {f ∈ st.owned | st.frameOf (map, page) = some f → ∃ k, frameOf k = some f}
        frameOf := frameOf }
    | none => none

def Next (c : MapCall) (st' : UserMaps) : Prop := st.step c = some st'

/-- Calls on the maps, at user pages, with frames other than 0. -/
def Legal : MapCall → Prop
  | .pageAlloc => True
  | .map4k map page f _ => map ∈ st.live ∧ page < userPages ∧ f ≠ 0
  | .unmap map page => map ∈ st.live ∧ page < userPages

/-- A mapped frame has an address that fits an entry, and is the caller's or has no `struct page`.
-/
def Owns : MapCall → Prop
  | .map4k _ _ f _ => f < 2 ^ 40 ∧ (f ∈ st.owned ∨ st.mmu.pmm.totalPages ≤ f)
  | _ => True

noncomputable def uses (T : ℕ × ℕ → Option ℕ) (f : ℕ) : ℕ := Naming.count id T f

def Few : Prop := ∀ f, uses st.frameOf f < 2 ^ 32

/-- Trees without 2 MiB pages that hold `frameOf`, with the right counts of the owned frames. -/
structure Sound (place : Places) (free : ℕ → List ℕ) (alloc : Set Block) : Prop where
  grove : Grove UserIdx False st.mmu place free alloc
  live_iff : ∀ m, m ∈ st.live ↔ place m = some (m, [])
  frame_iff : ∀ m v f, st.frameOf (m, v) = some f ↔
    v < userPages ∧ ∃ e, Leaf st.mmu place m (pagePath v) (v % 512) e ∧ e.frame = f
  finite : {k | st.frameOf k ≠ none}.Finite
  owned_alloc : ∀ f ∈ st.owned, ⟨f, 0⟩ ∈ alloc ∧ place f = none
  named : ∀ k f, st.frameOf k = some f → f ∈ st.owned ∨ st.mmu.pmm.totalPages ≤ f
  counted : ∀ f ∈ st.owned, (st.mmu.pmm.page f).refCount = BitVec.ofNat 32 (uses st.frameOf f)

/-- No 2 MiB pages; frames and tables are accounted for. -/
def WellFormed : Prop := ∃ place free alloc, Sound st place free alloc

end

variable {st st' : UserMaps} {place : Places} {free : ℕ → List ℕ} {alloc : Set Block}
  {m v f : ℕ}

theorem page_mul (v : ℕ) : v * pageSize / pageSize = v := Nat.mul_div_cancel v (by decide)

theorem ownPath_mul (hv : v < userPages) :
    OwnPath UserIdx [] (pagePath (v * pageSize / pageSize)) := by
  rw [page_mul]
  exact ownPath_pagePath hv

theorem vmmGetPhys_of_target (s : Mmu) (map virt : ℕ) :
    (s.unmapTarget map virt = none → s.vmmGetPhys map virt = 0) ∧
    ∀ phys, s.unmapTarget map virt = some (phys, 0) →
      s.vmmGetPhys map virt = phys + virt % pageSize := by
  have hmod : virt &&& (pageSize - 1) = virt % pageSize := Nat.and_two_pow_sub_one_eq_mod virt 12
  unfold unmapTarget vmmGetPhys
  simp only
  split_ifs <;> simp_all

theorem Sound.translate (h : Sound st place free alloc) (hm : m ∈ st.live) {a : ℕ}
    (ha : a / pageSize < userPages) :
    st.mmu.vmmGetPhys m a = translateBy st.frameOf m a := by
  obtain ⟨hnone, hsome⟩ := vmmGetPhys_of_target st.mmu m a
  have hiff := unmapTarget_iff h.grove ((h.live_iff m).mp hm) (ownPath_pagePath ha)
  unfold translateBy
  cases hf : st.frameOf (m, a / pageSize) with
  | none =>
    apply hnone
    cases ht : st.mmu.unmapTarget m a with
    | none => rfl
    | some x =>
      obtain ⟨-, e, he, -⟩ := (hiff x.1 x.2).mp ht
      have := (h.frame_iff m _ _).mpr ⟨ha, e, he, rfl⟩
      simp [hf] at this
  | some f =>
    obtain ⟨-, e, he, rfl⟩ := (h.frame_iff m _ f).mp hf
    rw [hsome e.addr ((hiff e.addr 0).mpr ⟨rfl, e, he, rfl⟩)]
    rw [show e.addr = e.frame * pageSize from e.addr_eq]

section Uses

variable {T : ℕ × ℕ → Option ℕ} {k : ℕ × ℕ}

theorem ofNat_pred {n : ℕ} (hpos : 0 < n) (hlt : n < 2 ^ 32) :
    0 < BitVec.ofNat 32 n ∧ BitVec.ofNat 32 n - 1 = BitVec.ofNat 32 (n - 1) := by
  constructor
  · rw [BitVec.lt_def, BitVec.toNat_ofNat, Nat.mod_eq_of_lt hlt]
    exact hpos
  · obtain ⟨n, rfl⟩ : ∃ k, n = k + 1 := ⟨n - 1, by omega⟩
    rw [BitVec.ofNat_add]
    exact BitVec.add_sub_cancel _ _

section
variable (hfin : {k | T k ≠ none}.Finite)
include hfin

theorem uses_erase (k : ℕ × ℕ) (x : ℕ) :
    uses (update T k none) x + (if T k = some x then 1 else 0) = uses T x := by
  cases hk : T k with
  | none =>
    rw [← hk, update_eq_self, hk]
    simp
  | some g =>
    have herase : uses (update T k none) x + (if g = x then 1 else 0) = uses T x :=
      Naming.count_erase hfin hk x
    simpa using herase

theorem uses_update (k : ℕ × ℕ) (f x : ℕ) : uses (update T k (some f)) x =
    uses (update T k none) x + if f = x then 1 else 0 := by
  have hins : uses (update (update T k none) k (some f)) x =
      uses (update T k none) x + if f = x then 1 else 0 :=
    Naming.count_insert (Naming.finite_update hfin none) (update_self ..) f x
  rwa [update_idem] at hins

theorem uses_pos {x : ℕ} (hk : T k = some x) : 0 < uses T x :=
  Naming.count_pos hfin hk rfl

theorem ofNat_uses_erase {x : ℕ} (hlt : uses T x < 2 ^ 32) (k : ℕ × ℕ) :
    BitVec.ofNat 32 (uses (update T k none) x) =
      if T k = some x ∧ 0 < BitVec.ofNat 32 (uses T x) then BitVec.ofNat 32 (uses T x) - 1
      else BitVec.ofNat 32 (uses T x) := by
  have huses := uses_erase hfin k x
  by_cases hk : T k = some x
  · obtain ⟨hpos, hpred⟩ := ofNat_pred (uses_pos hfin hk) hlt
    rw [if_pos hk] at huses
    rw [if_pos ⟨hk, hpos⟩, hpred, ← huses, Nat.add_sub_cancel]
  · rw [if_neg hk, add_zero] at huses
    rw [if_neg fun hc => hk hc.1, huses]

end

theorem uses_eq_zero {x : ℕ} (h : ∀ k, T k ≠ some x) : uses T x = 0 := by
  by_contra hne
  obtain ⟨k, e, hk, rfl⟩ := Naming.exists_of_count_pos (Nat.pos_of_ne_zero hne)
  exact h k hk

end Uses

theorem physToPage_mul (pmm : Pmm) (f x : ℕ) :
    pmm.physToPage (f * pageSize) = some x ↔ f = x ∧ x < pmm.totalPages := by
  unfold physToPage
  rw [page_mul]
  split_ifs with hle
  · simp only [false_iff, not_and, not_lt]
    rintro rfl
    exact hle
  · simp only [some.injEq]
    constructor
    · rintro rfl
      exact ⟨rfl, by omega⟩
    · exact And.left

theorem physToPage_addr (pmm : Pmm) (e : PtEntry) (x : ℕ) :
    pmm.physToPage e.addr = some x ↔ e.frame = x ∧ x < pmm.totalPages := by
  rw [show e.addr = e.frame * pageSize from e.addr_eq, physToPage_mul]

section
variable (h : Sound st place free alloc)
include h

theorem Sound.owned_lt (hf : f ∈ st.owned) :
    f < st.mmu.pmm.totalPages := h.grove.wf.lt_total (h.owned_alloc f hf).1

theorem Sound.next_pageAlloc (hstep : Next st .pageAlloc st') :
    ∃ free' alloc', Sound st' place free' alloc' := by
  unfold Next step Mmu.pageAlloc at hstep
  rcases pmmAllocPages_spec h.grove.wf 0 with ⟨pmm1, free1, p, he, ha⟩ | ⟨he, -⟩
  · rw [he] at hstep
    cases hstep
    have hg : Grove UserIdx False { st.mmu with pmm := pmm1 } place free1 (insert ⟨p, 0⟩ alloc) :=
      h.grove.withPmm ha.wf ha.totalPages fun q x hq => .inr (h.grove.table_alloc q x hq)
    have hplt : p < st.mmu.pmm.totalPages := by
      rw [← ha.totalPages]
      exact ha.wf.lt_total (Set.mem_insert _ _)
    have hnew (x : ℕ) (hx : x ∈ st.owned) : x ≠ p := ha.ne (h.owned_alloc x hx).1
    refine ⟨free1, insert ⟨p, 0⟩ alloc, hg, h.live_iff, h.frame_iff, h.finite, ?_, ?_, ?_⟩
    · rintro x (rfl | hx)
      · exact ⟨Set.mem_insert _ _, h.grove.place_eq_none ha.fresh⟩
      · exact ⟨.inr (h.owned_alloc x hx).1, (h.owned_alloc x hx).2⟩
    · intro k x hk
      rcases h.named k x hk with hx | hx
      · exact .inl (.inr hx)
      · right
        rw [ha.totalPages]
        exact hx
    · rintro x (rfl | hx)
      · rw [ha.refCount_self, uses_eq_zero]
        · rfl
        · intro k hk
          rcases h.named k x hk with hx | hx
          · exact hnew x hx rfl
          · omega
      · rw [ha.refCount x (hnew x hx)]
        exact h.counted x hx
  · simp [he] at hstep

theorem Sound.map4k_returns {prot : BitVec 64} (hok : Legal st (.map4k m v f prot)) :
    ∃ s ok, st.mmu.mmuMap4k m (v * pageSize) (f * pageSize) prot = some (s, ok) ∧
      (ok = false → ∀ p, ¬ s.pmm.OnFreeList p) := by
  obtain ⟨hm, hv, -⟩ := hok
  obtain ⟨s1, r, place', free', alloc', he, hg, -, hn⟩ := vmmMap_grown h.grove
    ((h.live_iff m).mp hm) (ownPath_mul hv)
    (f * pageSize) (mmuToX86Flags prot)
  unfold mmuMap4k
  rw [he]
  cases r with
  | none =>
    refine ⟨s1, false, rfl, fun _ p hp => ?_⟩
    rw [hg.wf.onFreeList_iff, (hn rfl).resolve_right id] at hp
    exact hp
  | some t => exact ⟨_, true, rfl, nofun⟩

end

theorem leaf_mapLeaf {own : List ℕ → ℕ → Prop} {big : Prop} {s : Mmu} {t i phys j m' : ℕ}
    {π π' : List ℕ} {flags e : PtEntry} (h : Forest own big s place)
    (ht : place t = some (m, π)) (hflags : flags.has ptePresent) :
    Leaf (s.mapLeaf t i phys flags) place m' π' j e ↔
      if (m', π', j) = (m, π, i) then e = (BitVec.ofNat 64 phys &&& pageAddrMask) ||| flags
      else Leaf s place m' π' j e := by
  split_ifs with hif
  · obtain ⟨rfl, rfl, rfl⟩ : m' = m ∧ π' = π ∧ j = i := by simpa using hif
    constructor
    · rintro ⟨q, hq, rfl, -⟩
      rw [mapLeaf_entry, if_pos ⟨h.inj hq ht, rfl⟩]
    · rintro rfl
      exact ⟨t, ht, by rw [mapLeaf_entry, if_pos ⟨rfl, rfl⟩],
        by rw [PtEntry.has_or, hflags, Bool.or_true]⟩
  · have hent (q : ℕ) (hq : place q = some (m', π')) :
        (s.mapLeaf t i phys flags).entry q j = s.entry q j := by
      rw [mapLeaf_entry, if_neg]
      rintro ⟨rfl, rfl⟩
      cases hq.symm.trans ht
      exact hif rfl
    constructor
    · rintro ⟨q, hq, he, hp⟩
      exact ⟨q, hq, by rw [← hent q hq, he], hp⟩
    · rintro ⟨q, hq, he, hp⟩
      exact ⟨q, hq, by rw [hent q hq, he], hp⟩

theorem pageKey_inj {m' v' : ℕ} (hv : v < userPages) (hv' : v' < userPages) :
    (m', pagePath v', v' % 512) = (m, pagePath v, v % 512) ↔ (m', v') = (m, v) := by
  constructor
  · intro h
    obtain ⟨rfl, hp, hmod⟩ : m' = m ∧ pagePath v' = pagePath v ∧ v' % 512 = v % 512 := by
      simpa using h
    rw [pagePath_inj hv' hv hp hmod]
  · intro h
    obtain ⟨rfl, rfl⟩ := Prod.mk.inj h
    rfl

section
variable (h : Sound st place free alloc)
include h

theorem Sound.next_map4k {prot : BitVec 64} (hfew : Few st)
    (hok : Legal st (.map4k m v f prot)) (hown : Owns st (.map4k m v f prot))
    (hstep : Next st (.map4k m v f prot) st') :
    ∃ place' free' alloc', Sound st' place' free' alloc' := by
  obtain ⟨hm, hv, -⟩ := hok
  obtain ⟨hlt, howned⟩ := hown
  obtain ⟨hflags, hpres⟩ := Spaces.mmuToX86Flags_spec prot
  obtain ⟨s1, r, place', free', alloc', he, hg, hr, -⟩ := vmmMap_grown h.grove
    ((h.live_iff m).mp hm) (ownPath_mul hv)
    (f * pageSize) (mmuToX86Flags prot)
  unfold Next step mmuMap4k at hstep
  simp only at hstep
  rw [he] at hstep
  cases r with
  | none => exact absurd hstep (by simp)
  | some t =>
  simp only [some.injEq] at hstep
  subst hstep
  have ht := hr t rfl
  rw [page_mul] at hg ht ⊢
  have hg' := hg.toGrove.mapLeaf ht (by simp [pagePath]) (v % 512) (f * pageSize)
    (mmuToX86Flags prot)
  have hrec := mapLeaf_recounted s1 t (v % 512) (f * pageSize) (mmuToX86Flags prot)
  have htotal : (s1.mapLeaf t (v % 512) (f * pageSize) (mmuToX86Flags prot)).pmm.totalPages =
      st.mmu.pmm.totalPages := hrec.totalPages.trans hg.totalPages
  obtain ⟨hentry, hframe⟩ := leafEntry_spec hlt hflags
  have hold (m' v' : ℕ) (e : PtEntry) :
      Leaf s1 place' m' (pagePath v') (v' % 512) e ↔
        Leaf st.mmu place m' (pagePath v') (v' % 512) e :=
    hg.leaf_iff h.grove (by simp [pagePath]) (by simp [pagePath])
  have hslot : (if (s1.entry t (v % 512)).has ptePresent then
      some (s1.entry t (v % 512)).frame else none) = st.frameOf (m, v) := by
    apply ext
    intro x
    rw [h.frame_iff]
    constructor
    · intro hx
      split_ifs at hx with hp
      exact ⟨hv, _, (hold m v _).mp ⟨t, ht, rfl, hp⟩, some.inj hx⟩
    · rintro ⟨-, e, he, rfl⟩
      obtain ⟨q, hq, rfl, hp⟩ := (hold m v e).mpr he
      rw [hg.forest.inj hq ht] at hp ⊢
      rw [if_pos hp]
  refine ⟨place', free', alloc', hg', ?_, ?_, Naming.finite_update h.finite _, ?_, ?_, ?_⟩
  · intro x
    rw [hg.root_iff h.grove]
    exact h.live_iff x
  · intro m' v' x
    by_cases hv' : v' < userPages
    · simp only [leaf_mapLeaf hg.forest ht hpres, pageKey_inj hv hv', hold, hv', true_and, hentry]
      by_cases hk : (m', v') = (m, v)
      · simp only [hk, update_self, some.injEq]
        constructor
        · rintro rfl
          exact ⟨_, rfl, hframe⟩
        · rintro ⟨e, rfl, rfl⟩
          exact hframe.symm
      · simp only [hk, if_false, update_of_ne hk, h.frame_iff m' v' x, hv', true_and]
    · have hk : (m', v') ≠ (m, v) := fun hc => hv' ((Prod.mk.inj hc).2 ▸ hv)
      simp only [update_of_ne hk, h.frame_iff m' v' x, hv', false_and]
  · intro x hx
    obtain ⟨hxa, hxp⟩ := h.owned_alloc x hx
    exact ⟨hg.alloc_sub hxa, (hg.place_eq x hxa).trans hxp⟩
  · intro k x hk
    simp only [htotal] at hk ⊢
    by_cases hkk : k = (m, v)
    · rw [hkk, update_self] at hk
      cases hk
      exact howned
    · rw [update_of_ne hkk] at hk
      exact h.named k x hk
  · intro x hx
    obtain ⟨hxa, hxp⟩ := h.owned_alloc x hx
    have hxt : x ≠ t := by
      rintro rfl
      simp [hg.place_eq x hxa, hxp] at ht
    rw [mapLeaf_refCount hxt, hg.refCount x hxa hxp, h.counted x hx, uses_update h.finite,
      BitVec.ofNat_add, ofNat_uses_erase h.finite (hfew x), ← hslot]
    simp only [physToPage_addr, physToPage_mul, hg.totalPages, h.owned_lt hx, and_true]
    congr 1
    · simp [and_assoc]
    · split_ifs <;> rfl

theorem Sound.frees_owned (hm : m ∈ st.live) (hv : v < userPages)
    {phys o p : ℕ} (ht : st.mmu.unmapTarget m (v * pageSize) = some (phys, o))
    (hf : st.mmu.Frees phys p) : o = 0 ∧ p ∈ st.owned ∧ st.frameOf (m, v) = some p := by
  have hiff := unmapTarget_iff h.grove ((h.live_iff m).mp hm) (ownPath_mul hv)
  rw [page_mul] at hiff
  obtain ⟨rfl, e, he, rfl⟩ := (hiff phys o).mp ht
  obtain ⟨rfl, hlt⟩ := (physToPage_addr _ e p).mp hf.1
  have hk := (h.frame_iff m v e.frame).mpr ⟨hv, e, he, rfl⟩
  refine ⟨rfl, ?_, hk⟩
  exact (h.named _ _ hk).resolve_right (by omega)

theorem Sound.unmap_spec (hok : Legal st (.unmap m v)) :
    ∃ s' place' free' alloc', st.mmu.vmmUnmap m (v * pageSize) = some s' ∧
      Unmapped UserIdx False st.mmu place alloc m (v * pageSize) s' place' free' alloc' := by
  obtain ⟨hm, hv⟩ := hok
  obtain ⟨s', place', free', alloc', he, hu, -⟩ := vmmUnmap_unmapped
    (fun π i hi => UserIdx.lt hi) h.grove ((h.live_iff m).mp hm) (ownPath_mul hv) (by
      intro phys o p ht hf
      obtain ⟨rfl, hp, -⟩ := h.frees_owned hm hv ht hf
      exact ⟨(h.owned_alloc p hp).1, fun _ => (h.owned_alloc p hp).2⟩)
  exact ⟨s', place', free', alloc', he, hu⟩

theorem Sound.next_unmap (hfew : Few st)
    (hok : Legal st (.unmap m v)) (hstep : Next st (.unmap m v) st') :
    ∃ place' free' alloc', Sound st' place' free' alloc' := by
  obtain ⟨s', place', free', alloc', he, hu⟩ := h.unmap_spec hok
  obtain ⟨hm, hv⟩ := hok
  unfold Next step at hstep
  simp only [he, some.injEq] at hstep
  subst hstep
  have hiff := unmapTarget_iff h.grove ((h.live_iff m).mp hm) (ownPath_mul hv)
  rw [page_mul] at hiff
  -- the frame that is given up is free only if no other page is mapped to it
  have hcount (x : ℕ) (hx : x ∈ st.owned) :
      (s'.pmm.page x).refCount = BitVec.ofNat 32 (uses (update st.frameOf (m, v) none) x) := by
    rw [hu.refCount x (h.owned_alloc x hx).2, ofNat_uses_erase h.finite (hfew x)]
    cases ht : st.mmu.unmapTarget m (v * pageSize) with
    | none =>
      have hk : st.frameOf (m, v) ≠ some x := by
        intro hk
        obtain ⟨-, e, he, -⟩ := (h.frame_iff m v x).mp hk
        simp [(hiff e.addr 0).mpr ⟨rfl, e, he, rfl⟩] at ht
      rw [if_neg fun hc => hk hc.1]
      exact h.counted x hx
    | some y =>
      obtain ⟨-, e, he, haddr⟩ := (hiff y.1 y.2).mp ht
      have hframe := (h.frame_iff m v e.frame).mpr ⟨hv, e, he, rfl⟩
      simp only
      rw [decRef_refCount, ← haddr, h.counted x hx]
      simp only [physToPage_addr, h.owned_lt hx, and_true, hframe, some.injEq]
  refine ⟨place', free', alloc', hu.toGrove, ?_, ?_, Naming.finite_update h.finite _, ?_, ?_, ?_⟩
  · intro x
    rw [h.live_iff]
    exact ⟨hu.root x, hu.place_some x _⟩
  · intro m' v' x
    by_cases hv' : v' < userPages
    · have hleaf (e : PtEntry) := hu.leaf_iff m' (pagePath v') (v' % 512) e (by simp [pagePath])
        (Nat.mod_lt _ (by decide))
      rw [page_mul] at hleaf
      simp only [hleaf, ne_eq, pageKey_inj hv hv']
      by_cases hk : (m', v') = (m, v)
      · simp [hk]
      · simp only [update_of_ne hk, h.frame_iff m' v' x, hk, not_false_eq_true,
          and_true]
    · have hk : (m', v') ≠ (m, v) := fun hc => hv' ((Prod.mk.inj hc).2 ▸ hv)
      simp only [update_of_ne hk, h.frame_iff m' v' x, hv', false_and]
  · rintro x ⟨hx, hkept⟩
    obtain ⟨hxa, hxp⟩ := h.owned_alloc x hx
    refine ⟨hu.alloc_kept _ hxa (fun _ => hxp) ?_, ?_⟩
    · rintro phys o p ht hf hc
      obtain ⟨rfl, -, hk⟩ := h.frees_owned hm hv ht hf
      obtain rfl : x = p := congrArg Block.head hc
      -- another page is mapped to the frame, so its count does not come down to zero
      obtain ⟨k, hk'⟩ := hkept hk
      have hone := uses_erase h.finite (m, v) x
      rw [if_pos hk] at hone
      have hpos : 0 < uses (update st.frameOf (m, v) none) x :=
        uses_pos (Naming.finite_update h.finite none) hk'
      have hle := hf.2
      have hlt := hfew x
      rw [h.counted x hx, BitVec.le_def, BitVec.toNat_ofNat] at hle
      have : (1 : BitVec 32).toNat = 1 := rfl
      omega
    · cases hp : place' x with
      | none => rfl
      | some y =>
        simp [hu.place_some x y hp] at hxp
  · intro k x hk
    have hkk : k ≠ (m, v) := by
      rintro rfl
      simp at hk
    simp only [update_of_ne hkk] at hk
    simp only [hu.totalPages]
    refine (h.named k x hk).imp_left fun hx => ⟨hx, fun _ => ⟨k, ?_⟩⟩
    rw [update_of_ne hkk]
    exact hk
  · rintro x ⟨hx, -⟩
    exact hcount x hx

theorem Sound.next (hfew : Few st) {c : MapCall}
    (hok : Legal st c) (hown : Owns st c) (hstep : Next st c st') :
    ∃ place' free' alloc', Sound st' place' free' alloc' := by
  cases c with
  | pageAlloc => exact ⟨place, h.next_pageAlloc hstep⟩
  | map4k m v f prot => exact h.next_map4k hfew hok hown hstep
  | unmap m v => exact h.next_unmap hfew hok hstep

end

/-- While the frames mapped are the caller's or have no `struct page`, and none is mapped more often
than `ref_count` can count, `mmu_translate` answers as the partial map that the calls update. The
calls return, and `mmu_map_4k` fails only for want of pages. -/
theorem reaches_translate (h : WellFormed st)
    (hr : Run.Reaches Next (fun s c => Legal s c ∧ Owns s c ∧ Few s) st st') :
    (∀ m ∈ st'.live, ∀ a, a / pageSize < userPages →
      st'.mmu.vmmGetPhys m a = translateBy st'.frameOf m a) ∧
    (∀ m v f prot, Legal st' (.map4k m v f prot) → ∃ s ok,
      st'.mmu.mmuMap4k m (v * pageSize) (f * pageSize) prot = some (s, ok) ∧
        (ok = false → ∀ p, ¬ s.pmm.OnFreeList p)) ∧
    ∀ m v, Legal st' (.unmap m v) → ∃ s, st'.mmu.vmmUnmap m (v * pageSize) = some s := by
  have hinv : WellFormed st' := by
    apply hr.invariant
    · rintro s c s' ⟨place, free, alloc, hs⟩ ⟨hok, hown, hfew⟩ hstep
      exact hs.next hfew hok hown hstep
    · exact h
  obtain ⟨place, free, alloc, hs⟩ := hinv
  refine ⟨fun m hm a ha => hs.translate hm ha, fun m v f prot hok => hs.map4k_returns hok, ?_⟩
  intro m v hok
  obtain ⟨s, -, -, -, he, -⟩ := hs.unmap_spec hok
  exact ⟨s, he⟩

/-- The maps after the calls on address spaces, with their frames. -/
noncomputable def ofSpaces (s : Mmu) (live : Set ℕ) : UserMaps where
  mmu := s
  live := live
  owned := {f | 0 < refs (s.mappings live) f}
  frameOf := fun k => (s.mappings live k).map PtEntry.frame

theorem wellFormed_ofSpaces {s : Mmu} {live pages : Set ℕ}
    (h : s.Inv live place free alloc pages) : WellFormed (ofSpaces s live) := by
  have hiff (m v : ℕ) (e : PtEntry) : s.mappings live (m, v) = some e ↔
      v < userPages ∧ Leaf s place m (pagePath v) (v % 512) e :=
    h.placed.mappings_iff h.live_iff
  have huses (f : ℕ) : uses (ofSpaces s live).frameOf f = refs (s.mappings live) f := by
    unfold uses refs Naming.count Naming.namers ofSpaces
    congr 1
    ext k
    simp
  refine ⟨place, free, alloc, ⟨placed_iff.mp h.placed, h.held.wf, h.held.total_le,
    fun p x hp => h.table_alloc hp⟩, h.live_iff, ?_, ?_, ?_, ?_, ?_⟩
  · intro m v f
    unfold ofSpaces
    simp only [map_eq_some_iff, hiff]
    constructor
    · rintro ⟨e, ⟨hv, he⟩, rfl⟩
      exact ⟨hv, e, he, rfl⟩
    · rintro ⟨hv, e, he, rfl⟩
      exact ⟨e, ⟨hv, he⟩, rfl⟩
  · apply h.held.finite.subset
    intro k hk hc
    exact hk (congrArg (Option.map PtEntry.frame) hc)
  · intro f hf
    obtain ⟨k, e, hk, rfl⟩ := Naming.exists_of_count_pos hf
    refine ⟨h.held.named_alloc k e hk, ?_⟩
    cases hp : place e.frame with
    | none => rfl
    | some x => exact absurd rfl (h.table_ne hp k e hk)
  · intro k f hk
    obtain ⟨e, he, rfl⟩ := map_eq_some_iff.mp hk
    exact .inl (h.held.refs_pos he)
  · intro f hf
    obtain ⟨k, e, hk, rfl⟩ := Naming.exists_of_count_pos hf
    rw [huses]
    exact h.held.refCount k e hk

def oneMap : UserMaps where
  mmu := ((Spaces.poolSpaces 1).mmu.vmmCreateUserMap.map Prod.fst).getD (Spaces.poolSpaces 1).mmu
  live := {1024}
  owned := ∅
  frameOf := fun _ => none

theorem oneMap_wellFormed : WellFormed oneMap := by
  have hboot : Spaces.Sound (Spaces.poolSpaces 1) (fun _ => none) (Spaces.poolFree 1)
      ({⟨0, 0⟩} : Set Block) (cover (blocks (Spaces.poolFree 1) {⟨0, 0⟩})) :=
    Spaces.Sound.boot rfl (by decide) (Spaces.pool_wf (by decide)) rfl
  have hroot : (Spaces.poolSpaces 1).mmu.vmmCreateUserMap.map Prod.snd = some (some 1024) := by
    decide +kernel
  rcases vmmCreateUserMap_spec hboot.inv with ⟨s, p, free', he, hi, -, -, hmap⟩ | ⟨s, he, -⟩
  · rw [he] at hroot
    obtain rfl : p = 1024 := by simpa using hroot
    have hnone (k : ℕ × ℕ) : s.mappings (insert 1024 (Spaces.poolSpaces 1).live) k = none := by
      rw [hmap]
      exact if_neg fun hc => hc.1
    have heq : ofSpaces s (insert 1024 (Spaces.poolSpaces 1).live) = oneMap := by
      unfold ofSpaces oneMap
      rw [he]
      congr
      · exact LawfulSingleton.insert_empty_eq 1024
      · apply Set.eq_empty_of_forall_notMem
        intro f hf
        have hpos : 0 < refs (s.mappings (insert 1024 (Spaces.poolSpaces 1).live)) f := hf
        rw [Held.refs_eq_zero fun k e hk => absurd hk (by simp [hnone k])] at hpos
        cases hpos
      · funext k
        rw [hnone k]
        rfl
    rw [← heq]
    exact wellFormed_ofSpaces hi
  · simp [he] at hroot

theorem Next.live_eq {c : MapCall} (h : Next st c st') : st'.live = st.live := by
  unfold Next step at h
  cases c <;> simp only at h <;> split at h <;> simp_all <;> rw [← h]

theorem reaches_legal {calls : List MapCall} (hrun : calls.foldlM step st = some st')
    (hok : ∀ c ∈ calls, Legal st c) : Run.Reaches Next Legal st st' := by
  induction calls generalizing st with
  | nil =>
    cases hrun
    exact Run.Reaches.refl _
  | cons c calls ih =>
    obtain ⟨st1, he, hrun⟩ := bind_eq_some_iff.mp hrun
    have hnext : Next st c st1 := he
    refine (Run.Reaches.single c (hok c (by simp)) hnext).trans (ih hrun fun c' hc' => ?_)
    have := hok c' (by simp [hc'])
    cases c' <;> simp only [Legal, hnext.live_eq] at this ⊢ <;> exact this

/-- A frame mapped while free becomes a table; unmapping it frees the table, and the next table in
its place takes the translations below it away. -/
theorem free_frame_breaks_translate :
    WellFormed oneMap ∧ ∃ st', Run.Reaches Next Legal oneMap st' ∧ 1024 ∈ st'.live ∧
      st'.mmu.vmmGetPhys 1024 (2 ^ 39) ≠ translateBy st'.frameOf 1024 (2 ^ 39) := by
  let calls : List MapCall := [.map4k 1024 0 1028 8, .map4k 1024 (2 ^ 27) 5000 8,
    .unmap 1024 0, .map4k 1024 (2 ^ 28) 5001 8]
  obtain ⟨st', hst', h1, h2⟩ : ∃ st' ∈ calls.foldlM step oneMap,
      st'.mmu.vmmGetPhys 1024 (2 ^ 39) = 0 ∧ translateBy st'.frameOf 1024 (2 ^ 39) = 5000 * 4096 := by
    decide +kernel
  refine ⟨oneMap_wellFormed, ?_⟩
  have hr : Run.Reaches Next Legal oneMap st' := by
    apply reaches_legal hst'
    intro c hc
    simp only [calls, List.mem_cons, List.not_mem_nil, or_false] at hc
    rcases hc with rfl | rfl | rfl | rfl
    · exact ⟨rfl, by decide, by decide⟩
    · exact ⟨rfl, by decide, by decide⟩
    · exact ⟨rfl, by decide⟩
    · exact ⟨rfl, by decide, by decide⟩
  refine ⟨st', hr, ?_, by rw [h1, h2]; decide⟩
  have hlive : st'.live = oneMap.live := by
    apply hr.invariant (I := fun s => s.live = oneMap.live)
    · intro s c s' hs _ hstep
      exact hstep.live_eq.trans hs
    · rfl
  rw [hlive]
  rfl

theorem reaches_translate_onePage :
    ∃ st', Run.Reaches Next (fun s c => Legal s c ∧ Owns s c ∧ Few s) oneMap st' ∧
      st'.frameOf (1024, 3) = some 1025 ∧ (∀ m ∈ st'.live, ∀ a, a / pageSize < userPages →
        st'.mmu.vmmGetPhys m a = translateBy st'.frameOf m a) ∧
      (∀ m v f prot, Legal st' (.map4k m v f prot) → ∃ s ok,
        st'.mmu.mmuMap4k m (v * pageSize) (f * pageSize) prot = some (s, ok) ∧
          (ok = false → ∀ p, ¬ s.pmm.OnFreeList p)) ∧
      ∀ m v, Legal st' (.unmap m v) → ∃ s, st'.mmu.vmmUnmap m (v * pageSize) = some s := by
  have hfew (st : UserMaps) (h : st.frameOf = fun _ => none) : Few st := by
    intro f
    rw [h, uses_eq_zero (by simp)]
    decide
  have hpage : (oneMap.mmu.pageAlloc 0).map Prod.snd = some (some 1025) := by decide +kernel
  have hmap : ((oneMap.mmu.pageAlloc 0).bind fun x =>
      x.1.mmuMap4k 1024 (3 * pageSize) (1025 * pageSize) 8).map Prod.snd = some true := by
    decide +kernel
  obtain ⟨⟨s1, _⟩, he1, rfl⟩ := map_eq_some_iff.mp hpage
  simp only [he1, bind_some] at hmap
  obtain ⟨⟨s2, _⟩, he2, rfl⟩ := map_eq_some_iff.mp hmap
  let st1 : UserMaps := { oneMap with mmu := s1, owned := insert 1025 ∅ }
  let st2 : UserMaps := { st1 with
    mmu := s2, frameOf := update st1.frameOf (1024, 3) (some 1025) }
  have hstep1 : Next oneMap .pageAlloc st1 := by
    unfold Next step
    rw [he1]
    rfl
  have hstep2 : Next st1 (.map4k 1024 3 1025 8) st2 := by
    unfold Next step
    simp only [st1, he2]
    rfl
  have hok2 : Legal st1 (.map4k 1024 3 1025 8) ∧ Owns st1 (.map4k 1024 3 1025 8) ∧ Few st1 :=
    ⟨⟨rfl, by decide, by decide⟩, ⟨by decide, .inl (Set.mem_insert _ _)⟩, hfew _ rfl⟩
  have hr : Run.Reaches Next (fun s c => Legal s c ∧ Owns s c ∧ Few s) oneMap st2 :=
    (Run.Reaches.single .pageAlloc ⟨trivial, trivial, hfew _ rfl⟩ hstep1).trans
      (.single _ hok2 hstep2)
  exact ⟨st2, hr, by simp [st2], reaches_translate oneMap_wellFormed hr⟩

end UserMaps
end Doppio
