import Doppio.Mmu.Grove

/-! `vmm_map` and `vmm_unmap` on a forest: what they do to the last level, whatever frames it names.
-/
namespace Doppio
open Buddy List
namespace Mmu
open Pmm

variable {own : List ℕ → ℕ → Prop} {big : Prop} {s s' : Mmu} {place place' : Places}
  {free free' : ℕ → List ℕ} {alloc alloc' : Set Block} {t q m i : ℕ} {π : List ℕ} {e : PtEntry}

/-- The present entry `e` at the index `i` of the table at `π`. -/
def Leaf (s : Mmu) (place : Places) (m : ℕ) (π : List ℕ) (i : ℕ) (e : PtEntry) : Prop :=
  ∃ t, place t = some (m, π) ∧ s.entry t i = e ∧ e.has ptePresent

variable {π' : List ℕ}

theorem Grown.leaf_iff {is : List ℕ} (hs : Grove own big s place free alloc)
    (h : Grown own big s place alloc m π is s' place' free' alloc')
    (hlen : π.length + is.length ≤ 3) {m' j : ℕ} (hπ' : π'.length = 3) :
    Leaf s' place' m' π' j e ↔ Leaf s place m' π' j e := by
  have hsame (t : ℕ) (ht : place t = some (m', π')) : s'.entry t j = s.entry t j := by
    apply h.entry_eq t j (hs.table_alloc t _ ht)
    intro hw
    obtain ⟨π1, hπ1, hlt⟩ := hw.length_lt
    cases ht.symm.trans hπ1
    omega
  constructor
  · rintro ⟨t, ht, rfl, hp⟩
    by_cases hta : (⟨t, 0⟩ : Block) ∈ alloc
    · rw [h.place_eq t hta] at ht
      exact ⟨t, ht, (hsame t ht).symm, hp⟩
    · simp [h.fresh t _ ht hta hπ' j] at hp
  · rintro ⟨t, ht, rfl, hp⟩
    refine ⟨t, ?_, hsame t ht, hp⟩
    rw [h.place_eq t (hs.table_alloc t _ ht), ht]

/-- The end of `vmm_map`: the entry is written, and the counts follow. -/
def mapLeaf (s : Mmu) (t i phys : ℕ) (flags : PtEntry) : Mmu :=
  let e := s.entry t i
  let s := if e.has ptePresent then s.decRef e.addr else s.incRef (t * pageSize)
  let s := s.setEntry t i ((BitVec.ofNat 64 phys &&& pageAddrMask) ||| flags)
  s.incRef phys

theorem mapLeaf_entry (s : Mmu) (t i phys : ℕ) (flags : PtEntry) (q j : ℕ) :
    (s.mapLeaf t i phys flags).entry q j =
      if q = t ∧ j = i then (BitVec.ofNat 64 phys &&& pageAddrMask) ||| flags else s.entry q j := by
  unfold mapLeaf
  rw [(incRef_recounted _ _).entry, setEntry_entry]
  split_ifs
  · rfl
  · rw [(decRef_recounted _ _).entry]
  · rw [(incRef_recounted _ _).entry]

theorem mapLeaf_recounted (s : Mmu) (t i phys : ℕ) (flags : PtEntry) :
    s.pmm.Recounted (s.mapLeaf t i phys flags).pmm := by
  unfold mapLeaf
  simp only
  have h (s1 : Mmu) (hr : Recounted s s1) (e : PtEntry) :
      s.pmm.Recounted ((s1.setEntry t i e).incRef phys).pmm :=
    hr.pmm.trans (incRef_recounted (s1.setEntry t i e) phys).pmm
  split_ifs
  · exact h _ (decRef_recounted _ _) _
  · exact h _ (incRef_recounted _ _) _

theorem mapLeaf_refCount {x : ℕ} (hx : x ≠ t) (phys : ℕ) (flags : PtEntry) :
    ((s.mapLeaf t i phys flags).pmm.page x).refCount =
      (if (s.entry t i).has ptePresent ∧ s.pmm.physToPage (s.entry t i).addr = some x ∧
          0 < (s.pmm.page x).refCount then (s.pmm.page x).refCount - 1
        else (s.pmm.page x).refCount) + if s.pmm.physToPage phys = some x then 1 else 0 := by
  have hpage (pmm : Pmm) (hr : s.pmm.Recounted pmm) (a : ℕ) :
      pmm.physToPage a = s.pmm.physToPage a := by
    unfold physToPage
    rw [hr.totalPages]
  have hself : s.pmm.physToPage (t * pageSize) ≠ some x := by
    unfold physToPage pageSize
    split_ifs
    · simp
    · simpa using Ne.symm hx
  unfold mapLeaf
  rw [incRef_refCount]
  by_cases hp : (s.entry t i).has ptePresent
  · rw [if_pos hp, setEntry_pmm, hpage _ (decRef_recounted _ _).pmm, decRef_refCount]
    simp only [hp, true_and]
    split_ifs <;> simp
  · rw [if_neg hp, setEntry_pmm, hpage _ (incRef_recounted _ _).pmm, incRef_refCount]
    simp only [hp, Bool.false_eq_true, false_and, if_false]
    split_ifs <;> simp

theorem Grove.mapLeaf (h : Grove own big s place free alloc) (ht : place t = some (m, π))
    (hlen : π.length = 3) (i phys : ℕ) (flags : PtEntry) :
    Grove own big (s.mapLeaf t i phys flags) place free alloc := by
  have hr := mapLeaf_recounted s t i phys flags
  refine ⟨h.forest.congr ?_, h.wf.recounted hr, hr.totalPages ▸ h.total_le, h.table_alloc⟩
  intro q m' π' j hq hlen' _
  rw [mapLeaf_entry, if_neg]
  · exact ⟨rfl, rfl, rfl⟩
  · rintro ⟨rfl, -⟩
    cases hq.symm.trans ht
    omega

theorem vmmMap_grown (h : Grove own big s place free alloc) (hm : place m = some (m, []))
    {virt : ℕ} (hown : OwnPath own [] (pagePath (virt / pageSize))) (phys : ℕ) (flags : PtEntry) :
    ∃ s1 r place' free' alloc', s.vmmMap m virt phys flags = some (match r with
        | none => (s1, false) | some t => (s1.mapLeaf t (virt / pageSize % 512) phys flags, true)) ∧
      Grown own big s place alloc m [] (pagePath (virt / pageSize)) s1 place' free' alloc' ∧
      (∀ t, r = some t → place' t = some (m, pagePath (virt / pageSize))) ∧
      (r = none → freePages free' = ∅ ∨ big) := by
  obtain ⟨s1, r, place', free', alloc', he, hg, hr, hn, -⟩ := vmmGetPteLoop_grown
    (pagePath (virt / pageSize)) h hm hown (by simp [pagePath])
  refine ⟨s1, r, place', free', alloc', ?_, hg, hr, hn⟩
  unfold vmmMap vmmGetPte
  rw [(pageIdx_eq virt).1, he, (pageIdx_eq virt).2]
  cases r with
  | none => rfl
  | some t => rfl

/-- The address and order of the frame that `vmm_unmap` gives up. -/
def unmapTarget (s : Mmu) (pml4 virt : ℕ) : Option (ℕ × ℕ) :=
  let e0 := s.entry pml4 (pml4Idx virt)
  let e1 := s.entry e0.frame (pdptIdx virt)
  let e2 := s.entry e1.frame (pdIdx virt)
  let e3 := s.entry e2.frame (ptIdx virt)
  if !e0.has ptePresent then none
  else if !e1.has ptePresent then none
  else if !e2.has ptePresent then none
  else if e2.has pteHuge then some (e2.addr, 9)
  else if !e3.has ptePresent then none
  else some (e3.addr, 0)

/-- The page whose count comes down to zero when the entry with `phys` goes. -/
def Frees (s : Mmu) (phys p : ℕ) : Prop :=
  s.pmm.physToPage phys = some p ∧ (s.pmm.page p).refCount ≤ 1

/-- After an entry of the last level goes and its frame is given up. -/
structure Dropped (own : List ℕ → ℕ → Prop) (big : Prop) (s : Mmu) (place : Places)
    (alloc : Set Block) (phys o : ℕ) (s' : Mmu) (free' : ℕ → List ℕ) (alloc' : Set Block) : Prop
    extends Grove own big s' place free' alloc' where
  entry : s'.entry = s.entry
  kernelMap : s'.kernelMap = s.kernelMap
  totalPages : s'.pmm.totalPages = s.pmm.totalPages
  alloc_sub : alloc' ⊆ alloc
  alloc_kept : ∀ b ∈ alloc, (∀ p, s.Frees phys p → b ≠ ⟨p, o⟩) → b ∈ alloc'
  refCount : ∀ x, (s'.pmm.page x).refCount = ((s.decRef phys).pmm.page x).refCount

theorem decRef_eq_zero_iff (s : Mmu) {phys p : ℕ} (hp : s.pmm.physToPage phys = some p) :
    ((s.decRef phys).pmm.page p).refCount = 0 ↔ (s.pmm.page p).refCount ≤ 1 := by
  rw [decRef_refCount]
  simp only [hp, true_and]
  split_ifs with h0
  · bv_omega
  · bv_omega

theorem dropRef_dropped (h : Grove own big s place free alloc) (phys o : ℕ)
    (hfree : ∀ p, s.Frees phys p → ⟨p, o⟩ ∈ alloc ∧ (o = 0 → place p = none)) :
    ∃ free' alloc', Dropped own big s place alloc phys o (s.dropRef phys o) free' alloc' ∧
      cover (blocks free' alloc') = cover (blocks free alloc) ∧
      ∀ p, s.Frees phys p → ⟨p, o⟩ ∉ alloc' := by
  have hr := decRef_recounted s phys
  have hg := h.recounted hr
  unfold dropRef
  cases hp : s.pmm.physToPage phys with
  | none =>
    refine ⟨free, alloc, ⟨h, rfl, rfl, rfl, subset_rfl, fun _ hb _ => hb, ?_⟩, rfl, ?_⟩
    · intro x
      rw [decRef_refCount, hp, if_neg (by simp)]
    · rintro p ⟨hf, -⟩
      rw [hp] at hf
      cases hf
  | some p =>
    simp only
    by_cases hz : ((s.decRef phys).pmm.page p).refCount = 0
    · rw [if_pos hz]
      have hle := (decRef_eq_zero_iff s hp).mp hz
      obtain ⟨hb, hpl⟩ := hfree p ⟨hp, hle⟩
      obtain ⟨free', hf⟩ := pmmFreePages_spec hg.wf hb
      refine ⟨free', alloc \ {⟨p, o⟩}, ⟨hg.withPmm hf.wf hf.keeps.totalPages ?_, hr.entry,
        hr.kernelMap, hf.keeps.totalPages.trans hr.pmm.totalPages, Set.sdiff_subset, ?_,
        hf.keeps.refCount⟩, hf.cover_eq, ?_⟩
      · intro q x hq
        refine ⟨h.table_alloc q x hq, ?_⟩
        intro hc
        obtain ⟨rfl, rfl⟩ := Block.mk.inj (Set.mem_singleton_iff.mp hc)
        simp [hpl rfl] at hq
      · intro b hb' hne
        exact ⟨hb', hne p ⟨hp, hle⟩⟩
      · rintro p' ⟨hp', -⟩
        cases hp.symm.trans hp'
        exact fun hc => hc.2 rfl
    · rw [if_neg hz]
      refine ⟨free, alloc, ⟨hg, hr.entry, hr.kernelMap, hr.pmm.totalPages, subset_rfl,
        fun _ hb _ => hb, fun _ => rfl⟩, rfl, ?_⟩
      rintro p' ⟨hp', hle⟩
      cases hp.symm.trans hp'
      exact absurd ((decRef_eq_zero_iff s hp).mpr hle) hz

/-- After tables without entries go. -/
structure Pruned (own : List ℕ → ℕ → Prop) (big : Prop) (s : Mmu) (place : Places)
    (alloc : Set Block) (s' : Mmu) (place' : Places) (free' : ℕ → List ℕ)
    (alloc' : Set Block) : Prop extends Grove own big s' place' free' alloc' where
  place_some : ∀ p x, place' p = some x → place p = some x
  root : ∀ m, place m = some (m, []) → place' m = some (m, [])
  alloc_sub : alloc' ⊆ alloc
  alloc_kept : ∀ b ∈ alloc, (b.order = 0 → place b.head = none) → b ∈ alloc'
  kernelMap : s'.kernelMap = s.kernelMap
  totalPages : s'.pmm.totalPages = s.pmm.totalPages
  entry_eq : ∀ q, place q = none → s'.entry q = s.entry q
  leaf_iff : ∀ m π j e, π.length = 3 → j < 512 → (Leaf s' place' m π j e ↔ Leaf s place m π j e)
  refCount : ∀ x, place x = none → (s'.pmm.page x).refCount = (s.pmm.page x).refCount

theorem Pruned.refl (h : Grove own big s place free alloc) :
    Pruned own big s place alloc s place free alloc where
  toGrove := h
  place_some := fun _ _ hp => hp
  root := fun _ hp => hp
  alloc_sub := subset_rfl
  alloc_kept := fun _ hb _ => hb
  kernelMap := rfl
  totalPages := rfl
  entry_eq := fun _ _ => rfl
  leaf_iff := fun _ _ _ _ _ _ => Iff.rfl
  refCount := fun _ _ => rfl

theorem Pruned.place_none {p : ℕ} (h : Pruned own big s place alloc s' place' free' alloc')
    (hp : place p = none) : place' p = none := by
  cases hp' : place' p with
  | none => rfl
  | some x =>
    simp [h.place_some p x hp'] at hp

theorem Pruned.trans {s'' : Mmu} {place'' : Places} {free'' : ℕ → List ℕ} {alloc'' : Set Block}
    (h : Pruned own big s place alloc s' place' free' alloc')
    (h' : Pruned own big s' place' alloc' s'' place'' free'' alloc'') :
    Pruned own big s place alloc s'' place'' free'' alloc'' where
  toGrove := h'.toGrove
  place_some := fun p x hp => h.place_some p x (h'.place_some p x hp)
  root := fun m hm => h'.root m (h.root m hm)
  alloc_sub := h'.alloc_sub.trans h.alloc_sub
  alloc_kept := fun b hb hn =>
    h'.alloc_kept b (h.alloc_kept b hb hn) fun ho => h.place_none (hn ho)
  kernelMap := h'.kernelMap.trans h.kernelMap
  totalPages := h'.totalPages.trans h.totalPages
  entry_eq := fun q hq => (h'.entry_eq q (h.place_none hq)).trans (h.entry_eq q hq)
  leaf_iff := fun m π j e hπ hj => (h'.leaf_iff m π j e hπ hj).trans (h.leaf_iff m π j e hπ hj)
  refCount := fun x hx => (h'.refCount x (h.place_none hx)).trans (h.refCount x hx)

theorem absent_of_empty (hempty : s.vmmPtIsEmpty t) {j : ℕ} (hj : j < 512) :
    (s.entry t j).has ptePresent = false := by
  unfold vmmPtIsEmpty at hempty
  rw [all_eq_true] at hempty
  simpa using hempty j (List.mem_range.mpr hj)

theorem Grove.eraseTable {up : ℕ} (hown : ∀ π i, own π i → i < 512)
    (h : Grove own big s place free alloc) (ht : place t = some (m, π ++ [i]))
    (hup : place up = some (m, π)) (hempty : s.vmmPtIsEmpty t) :
    ∃ s1 free' alloc', (s.decRef (up * pageSize)).pageFree (t * pageSize) 0 = some s1 ∧
      s1.entry = s.entry ∧
      Pruned own big s place alloc (s1.setEntry up i 0) (Function.update place t none) free'
        alloc' ∧ cover (blocks free' alloc') = cover (blocks free alloc) := by
  have hr := decRef_recounted s (up * pageSize)
  have hg := h.recounted hr
  have htal := h.table_alloc t _ ht
  obtain ⟨free', hf⟩ := pmmFreePages_spec hg.wf htal
  let s1 : Mmu := { s.decRef (up * pageSize) with
    pmm := (s.decRef (up * pageSize)).pmm.pmmFreePages t 0 }
  have hentry1 : s1.entry = s.entry := hr.entry
  have hentry (q j : ℕ) :
      (s1.setEntry up i 0).entry q j = if q = up ∧ j = i then 0 else s.entry q j := by
    rw [setEntry_entry, hentry1]
  have hforest : Forest own big (s1.setEntry up i 0) (Function.update place t none) := by
    apply h.forest.erase ht hup
    · intro j hj _ hl
      have := absent_of_empty hempty (hown _ _ hj)
      simp [hl.1] at this
    · intro hp
      rw [hentry, if_pos ⟨rfl, rfl⟩] at hp
      cases hp
    · intro p j _ hpj
      rw [hentry, if_neg hpj]
  have hlen := h.forest.length_lt ht
  have hwf : (s1.setEntry up i 0).pmm.Wf free' (alloc \ {⟨t, 0⟩}) := hf.wf
  refine ⟨s1, free', alloc \ {⟨t, 0⟩}, ?_, hentry1, ⟨⟨hforest, hwf, ?_, ?_⟩, ?_, ?_,
    Set.sdiff_subset, ?_, hr.kernelMap, ?_, ?_, ?_, ?_⟩, hf.cover_eq⟩
  · unfold pageFree
    rw [hg.wf.physToPage htal]
    rfl
  · exact hf.keeps.totalPages ▸ hg.total_le
  · intro p x hp
    obtain ⟨hpt, hp⟩ := Places.update_none.mp hp
    refine ⟨h.table_alloc p x hp, ?_⟩
    intro hc
    exact hpt (congrArg Block.head hc)
  · intro p x hp
    exact (Places.update_none.mp hp).2
  · intro m' hm'
    refine Places.update_none.mpr ⟨?_, hm'⟩
    rintro rfl
    have := congrArg (fun x => x.2.length) (Option.some.inj (hm'.symm.trans ht))
    simp at this
  · intro b hb hn
    refine ⟨hb, ?_⟩
    rintro rfl
    simp [hn rfl] at ht
  · exact hf.keeps.totalPages.trans hr.pmm.totalPages
  · intro q hq
    funext j
    rw [hentry, if_neg]
    rintro ⟨rfl, -⟩
    simp [hup] at hq
  · intro m' π' j e' hπ' hj
    have hne (q : ℕ) (hq : place q = some (m', π')) : q ≠ up := by
      rintro rfl
      cases hup.symm.trans hq
      omega
    constructor
    · rintro ⟨q, hq, he, hp⟩
      have hq' := (Places.update_none.mp hq).2
      rw [hentry, if_neg fun hc => hne q hq' hc.1] at he
      exact ⟨q, hq', he, hp⟩
    · rintro ⟨q, hq, he, hp⟩
      refine ⟨q, Places.update_none.mpr ⟨?_, hq⟩, ?_, hp⟩
      · rintro rfl
        simp [← he, absent_of_empty hempty hj] at hp
      · rw [hentry, if_neg fun hc => hne q hq hc.1]
        exact he
  · intro x hx
    have hxu : s.pmm.physToPage (up * pageSize) ≠ some x := by
      rw [h.wf.physToPage (h.table_alloc up _ hup)]
      intro hc
      simp [Option.some.inj hc, hx] at hup
    change (((s.decRef (up * pageSize)).pmm.pmmFreePages t 0).page x).refCount = _
    rw [hf.keeps.refCount, decRef_refCount, if_neg fun hc => hxu hc.1]

/-- `vmm_unmap` frees empty tables, clears the entries above them, and stops at the first that is
not empty. -/
theorem vmmPrune_pruned (hown : ∀ π i, own π i → i < 512) (l : List (ℕ × ℕ × ℕ))
    (h : Grove own big s place free alloc)
    (hchain : ∀ x ∈ l, ∃ π, place x.1 = some (m, π ++ [x.2.2]) ∧ place x.2.1 = some (m, π))
    (hdist : l.Pairwise fun x y => x.1 ≠ y.1 ∧ x.1 ≠ y.2.1) :
    ∃ s' place' free' alloc', vmmPrune l s = some s' ∧
      Pruned own big s place alloc s' place' free' alloc' ∧
      cover (blocks free' alloc') = cover (blocks free alloc) ∧
      (∀ q j, (∀ x ∈ l, ¬ (q = x.2.1 ∧ j = x.2.2)) → s'.entry q j = s.entry q j) := by
  induction l generalizing s place free alloc with
  | nil => exact ⟨s, place, free, alloc, rfl, Pruned.refl h, rfl, fun _ _ _ => rfl⟩
  | cons x l ih =>
    obtain ⟨t, up, i⟩ := x
    unfold vmmPrune
    by_cases hempty : s.vmmPtIsEmpty t
    · rw [if_pos hempty]
      obtain ⟨π, ht, hup⟩ := hchain _ (mem_cons_self ..)
      obtain ⟨s1, free1, alloc1, he1, hent1, hp1, hc1⟩ := h.eraseTable hown ht hup hempty
      obtain ⟨hd, hdist'⟩ := List.pairwise_cons.mp hdist
      obtain ⟨s', place', free', alloc', he', hp', hc', hent'⟩ := ih hp1.toGrove (by
        intro y hy
        obtain ⟨π', h1, h2⟩ := hchain y (mem_cons_of_mem _ hy)
        obtain ⟨hy1, hy2⟩ := hd y hy
        exact ⟨π', Places.update_none.mpr ⟨hy1.symm, h1⟩,
          Places.update_none.mpr ⟨hy2.symm, h2⟩⟩) hdist'
      refine ⟨s', place', free', alloc', ?_, hp1.trans hp', hc'.trans hc1, ?_⟩
      · simp only [Option.bind_eq_bind]
        rw [he1]
        exact he'
      · intro q j hqj
        rw [hent' q j fun y hy => hqj y (mem_cons_of_mem _ hy), setEntry_entry,
          if_neg (hqj _ (mem_cons_self ..)), hent1]
    · rw [if_neg hempty]
      exact ⟨s, place, free, alloc, rfl, Pruned.refl h, rfl, fun _ _ _ => rfl⟩

theorem pageFree_entry {phys o : ℕ} (h : s.pageFree phys o = some s') : s'.entry = s.entry := by
  obtain ⟨p, -, hs⟩ := Option.bind_eq_some_iff.mp h
  rw [← Option.some.inj hs]

theorem vmmPrune_stops {l : List (ℕ × ℕ × ℕ)} (hrun : vmmPrune l s = some s') {x : ℕ × ℕ × ℕ}
    (hx : x ∈ l) {j : ℕ} (hj : j < 512) (hp : (s.entry x.1 j).has ptePresent)
    (hnot : ∀ y ∈ l, ¬ (x.1 = y.2.1 ∧ j = y.2.2)) {q k : ℕ}
    (hqk : ∀ y ∈ l.dropLast, ¬ (q = y.2.1 ∧ k = y.2.2)) : s'.entry q k = s.entry q k := by
  induction l generalizing s with
  | nil => exact absurd hx (by simp)
  | cons y l ih =>
    obtain ⟨t, up, i⟩ := y
    unfold vmmPrune at hrun
    by_cases hempty : s.vmmPtIsEmpty t
    · rw [if_pos hempty] at hrun
      obtain ⟨s1, he1, hrun⟩ := Option.bind_eq_some_iff.mp hrun
      have hent1 : s1.entry = s.entry :=
        (pageFree_entry he1).trans (decRef_recounted s (up * pageSize)).entry
      -- the table with the entry comes later
      have hxl : x ∈ l := by
        rcases List.mem_cons.mp hx with rfl | hxl
        · simp [absent_of_empty hempty hj] at hp
        · exact hxl
      rw [dropLast_cons_of_ne_nil (ne_nil_of_mem hxl)] at hqk
      have hstep (a b : ℕ) (hab : ¬ (a = up ∧ b = i)) :
          (s1.setEntry up i 0).entry a b = s.entry a b := by
        rw [setEntry_entry, if_neg hab, hent1]
      rw [ih hrun hxl, hstep q k (hqk _ (mem_cons_self ..))]
      · rw [hstep x.1 j (hnot _ (mem_cons_self ..))]
        exact hp
      · exact fun y hy => hnot y (mem_cons_of_mem _ hy)
      · exact fun y hy => hqk y (mem_cons_of_mem _ hy)
    · rw [if_neg hempty] at hrun
      rw [Option.some.inj hrun]

/-- The tables below the map's entry for an address hold an entry beside those on the way to it. -/
def OtherBelow (s : Mmu) (pml4 virt : ℕ) : Prop :=
  let pdpt := (s.entry pml4 (pml4Idx virt)).frame
  let pd := (s.entry pdpt (pdptIdx virt)).frame
  let e2 := s.entry pd (pdIdx virt)
  ∃ j < 512, (j ≠ pdptIdx virt ∧ (s.entry pdpt j).has ptePresent) ∨
    (j ≠ pdIdx virt ∧ (s.entry pd j).has ptePresent) ∨
    (e2.has pteHuge = false ∧ j ≠ ptIdx virt ∧ (s.entry e2.frame j).has ptePresent)

structure Unmapped (own : List ℕ → ℕ → Prop) (big : Prop) (s : Mmu) (place : Places)
    (alloc : Set Block) (m virt : ℕ) (s' : Mmu) (place' : Places) (free' : ℕ → List ℕ)
    (alloc' : Set Block) : Prop extends Grove own big s' place' free' alloc' where
  place_some : ∀ p x, place' p = some x → place p = some x
  root : ∀ m, place m = some (m, []) → place' m = some (m, [])
  alloc_kept : ∀ b ∈ alloc, (b.order = 0 → place b.head = none) →
    (∀ phys o p, s.unmapTarget m virt = some (phys, o) → s.Frees phys p → b ≠ ⟨p, o⟩) → b ∈ alloc'
  kernelMap : s'.kernelMap = s.kernelMap
  totalPages : s'.pmm.totalPages = s.pmm.totalPages
  entry_eq : ∀ q, place q = none → s'.entry q = s.entry q
  top_eq : ∀ j, j ≠ pml4Idx virt ∨ s.unmapTarget m virt = none ∨ s.OtherBelow m virt →
    s'.entry m j = s.entry m j
  leaf_iff : ∀ m' π j e, π.length = 3 → j < 512 → (Leaf s' place' m' π j e ↔
    Leaf s place m' π j e ∧ (m', π, j) ≠ (m, pagePath (virt / pageSize), virt / pageSize % 512))
  refCount : ∀ x, place x = none → (s'.pmm.page x).refCount = match s.unmapTarget m virt with
    | some (phys, _) => ((s.decRef phys).pmm.page x).refCount
    | none => (s.pmm.page x).refCount

theorem Unmapped.refl (h : Grove own big s place free alloc) {virt : ℕ}
    (ht : s.unmapTarget m virt = none)
    (hleaf : ∀ e, ¬ Leaf s place m (pagePath (virt / pageSize)) (virt / pageSize % 512) e) :
    Unmapped own big s place alloc m virt s place free alloc where
  toGrove := h
  place_some := fun _ _ hp => hp
  root := fun _ hp => hp
  alloc_kept := fun _ hb _ _ => hb
  kernelMap := rfl
  totalPages := rfl
  entry_eq := fun _ _ => rfl
  top_eq := fun _ _ => rfl
  leaf_iff := by
    intro m' π j e _ _
    refine ⟨fun hl => ⟨hl, ?_⟩, And.left⟩
    intro hc
    obtain ⟨rfl, rfl, rfl⟩ : m' = _ ∧ π = _ ∧ j = _ := by simpa using hc
    exact hleaf e hl
  refCount := by
    intro x _
    rw [ht]

theorem Unmapped.of_pruned {phys o up i virt : ℕ} {s1 : Mmu} {free1 : ℕ → List ℕ}
    {alloc1 : Set Block} (ht : s.unmapTarget m virt = some (phys, o))
    (hd : Dropped own big s place alloc phys o s1 free1 alloc1) (hup : place up = some (m, π))
    (hp : Pruned own big (s1.setEntry up i 0) place alloc1 s' place' free' alloc')
    (htop : ∀ j, j ≠ pml4Idx virt ∨ s.OtherBelow m virt → s'.entry m j = s.entry m j)
    (hleaf : ∀ m' π' j e, π'.length = 3 → j < 512 →
      (Leaf (s.setEntry up i 0) place m' π' j e ↔ Leaf s place m' π' j e ∧
        (m', π', j) ≠ (m, pagePath (virt / pageSize), virt / pageSize % 512))) :
    Unmapped own big s place alloc m virt s' place' free' alloc' where
  toGrove := hp.toGrove
  place_some := hp.place_some
  root := hp.root
  alloc_kept := by
    intro b hb hn hne
    exact hp.alloc_kept b (hd.alloc_kept b hb fun p hf => hne phys o p ht hf) hn
  kernelMap := hp.kernelMap.trans hd.kernelMap
  totalPages := hp.totalPages.trans hd.totalPages
  entry_eq := by
    intro q hq
    rw [hp.entry_eq q hq]
    funext k
    rw [setEntry_entry, if_neg, hd.entry]
    rintro ⟨rfl, -⟩
    simp [hup] at hq
  top_eq := by
    rintro j (hj | hj | hj)
    · exact htop j (.inl hj)
    · simp [ht] at hj
    · exact htop j (.inr hj)
  leaf_iff := by
    intro m' π' j e hπ' hj
    rw [hp.leaf_iff m' π' j e hπ' hj, ← hleaf m' π' j e hπ' hj]
    have hent : (s1.setEntry up i 0).entry = (s.setEntry up i 0).entry := by
      funext a b
      rw [setEntry_entry, setEntry_entry, hd.entry]
    unfold Leaf
    rw [hent]
  refCount := by
    intro x hx
    rw [hp.refCount x hx, ht]
    exact hd.refCount x

theorem Grove.setEntry (h : Grove own big s place free alloc)
    (hw : ∀ m π, place t = some (m, π) → π.length < 3 → own π i → ¬ (s.entry t i).Links ∧
      (e.has ptePresent → big ∧ π.length = 2 ∧ e.has pteHuge)) :
    Grove own big (s.setEntry t i e) place free alloc := by
  have he : (s.setEntry t i e).entry t i = e := by simp
  refine { h with forest := h.forest.setEntry (t := t) (i := i) ?_ ?_ }
  · rw [he]
    exact hw
  · intro p j hpj
    rw [setEntry_entry, if_neg hpj]

theorem leaf_clear (h : Forest own big s place) (ht : place t = some (m, π)) {m' j : ℕ}
    : Leaf (s.setEntry t i 0) place m' π' j e ↔
      Leaf s place m' π' j e ∧ (m', π', j) ≠ (m, π, i) := by
  constructor
  · rintro ⟨q, hq, rfl, hp⟩
    rw [setEntry_entry] at hp ⊢
    split_ifs at hp ⊢ with hif
    · cases hp
    · refine ⟨⟨q, hq, rfl, hp⟩, ?_⟩
      intro hc
      obtain ⟨rfl, rfl, rfl⟩ : m' = m ∧ π' = π ∧ j = i := by simpa using hc
      exact hif ⟨h.inj hq ht, rfl⟩
  · rintro ⟨⟨q, hq, rfl, hp⟩, hne⟩
    refine ⟨q, hq, ?_, hp⟩
    rw [setEntry_entry, if_neg]
    rintro ⟨rfl, rfl⟩
    rw [ht] at hq
    cases hq
    exact hne rfl

theorem leaf_setEntry_above (ht : place t = some (m, π)) (hlen : π.length < 3) {g : PtEntry}
    {m' j : ℕ} (hπ' : π'.length = 3) :
    Leaf (s.setEntry t i g) place m' π' j e ↔ Leaf s place m' π' j e := by
  have hsame (q : ℕ) (hq : place q = some (m', π')) :
      (s.setEntry t i g).entry q j = s.entry q j := by
    rw [setEntry_entry, if_neg]
    rintro ⟨rfl, -⟩
    cases ht.symm.trans hq
    omega
  constructor
  · rintro ⟨q, hq, he, hp⟩
    exact ⟨q, hq, by rw [← hsame q hq, he], hp⟩
  · rintro ⟨q, hq, he, hp⟩
    exact ⟨q, hq, by rw [hsame q hq, he], hp⟩

/-- `vmm_unmap` takes away the entry `i` of the table `t`; then the tables in `l` may go. -/
structure Target (big : Prop) (s : Mmu) (place : Places) (m virt t i o : ℕ)
    (l : List (ℕ × ℕ × ℕ)) : Prop where
  target : s.unmapTarget m virt = some ((s.entry t i).addr, o)
  run : s.vmmUnmap m virt = vmmPrune l ((s.dropRef (s.entry t i).addr o).setEntry t i 0)
  placed : ∃ π, place t = some (m, π) ∧ (π.length < 3 → ¬ (s.entry t i).Links)
  small : big ∨ o = 0 ∧ Leaf s place m (pagePath (virt / pageSize)) (virt / pageSize % 512) (s.entry t i)
  leaf_iff : ∀ m' π j e, π.length = 3 → (Leaf (s.setEntry t i 0) place m' π j e ↔
    Leaf s place m' π j e ∧ (m', π, j) ≠ (m, pagePath (virt / pageSize), virt / pageSize % 512))
  chain : ∀ x ∈ l, ∃ π, place x.1 = some (m, π ++ [x.2.2]) ∧ place x.2.1 = some (m, π)
  dist : l.Pairwise fun x y => x.1 ≠ y.1 ∧ x.1 ≠ y.2.1
  ne_root : m ≠ t
  top : ∀ x ∈ l, m = x.2.1 → x.2.2 = pml4Idx virt
  above : ∀ x ∈ l.dropLast, m ≠ x.2.1
  other : s.OtherBelow m virt → ∃ x ∈ l, ∃ k < 512, (s.entry x.1 k).has ptePresent ∧
    ¬ (x.1 = t ∧ k = i) ∧ ∀ y ∈ l, ¬ (x.1 = y.2.1 ∧ k = y.2.2)

/-- The tables on the way to an address, down to the page directory. -/
structure Walked (s : Mmu) (place : Places) (m virt pdpt pd : ℕ) : Prop where
  root : place m = some (m, [])
  pml4_present : (s.entry m (pml4Idx virt)).has ptePresent
  pdpt_eq : (s.entry m (pml4Idx virt)).frame = pdpt
  pdpt_place : place pdpt = some (m, [pml4Idx virt])
  pdpt_present : (s.entry pdpt (pdptIdx virt)).has ptePresent
  pd_eq : (s.entry pdpt (pdptIdx virt)).frame = pd
  pd_place : place pd = some (m, [pml4Idx virt, pdptIdx virt])
  pd_present : (s.entry pd (pdIdx virt)).has ptePresent

theorem place_ne {p q : ℕ} (hp : place p = some (m, π)) (hq : place q = some (m, π'))
    (hlen : π.length ≠ π'.length) : p ≠ q := by
  rintro rfl
  cases hp.symm.trans hq
  exact hlen rfl

section
variable {virt pdpt pd : ℕ}

theorem Walked.other (hw : Walked s place m virt pdpt pd) (ho : s.OtherBelow m virt) : ∃ k < 512,
    (k ≠ pdptIdx virt ∧ (s.entry pdpt k).has ptePresent) ∨
    (k ≠ pdIdx virt ∧ (s.entry pd k).has ptePresent) ∨
    ((s.entry pd (pdIdx virt)).has pteHuge = false ∧ k ≠ ptIdx virt ∧
      (s.entry (s.entry pd (pdIdx virt)).frame k).has ptePresent) := by
  unfold OtherBelow at ho
  simpa only [hw.pdpt_eq, hw.pd_eq] using ho

variable (h : Grove own big s place free alloc)
include h

theorem Grove.not_leaf (rest : List ℕ) (ht : place t = some (m, π))
    (hnot : ¬ (s.entry t i).Links) (hpi : π ++ i :: rest = pagePath (virt / pageSize)) (e : PtEntry) :
    ¬ Leaf s place m (pagePath (virt / pageSize)) (virt / pageSize % 512) e := by
  rintro ⟨q, hq, -⟩
  rw [← hpi] at hq
  exact h.forest.not_below ht hnot rest hq

variable (hpath : OwnPath own [] (pagePath (virt / pageSize)))
include hpath

theorem Walked.target_huge (hw : Walked s place m virt pdpt pd)
    (hhuge : (s.entry pd (pdIdx virt)).has pteHuge) : Target big s place m virt pd (pdIdx virt) 9
      [(pd, pdpt, pdptIdx virt), (pdpt, m, pml4Idx virt)] := by
  obtain ⟨hidx, hlast⟩ := pageIdx_eq virt
  obtain ⟨-, -, hu2, -⟩ := hidx ▸ hpath
  have hother := hw.other
  obtain ⟨hm, hp0, hpdpt, h1, hp1, hpd, h2, hp2⟩ := hw
  have hmp := place_ne hm h1 (by simp)
  have hmd := place_ne hm h2 (by simp)
  have hpp := place_ne h1 h2 (by simp)
  have hnl : ¬ (s.entry pd (pdIdx virt)).Links := by
    intro hl
    rw [hl.2] at hhuge
    cases hhuge
  refine ⟨?_, ?_, ⟨_, h2, fun _ => hnl⟩, ?_, ?_, ?_, ?_, hmd, ?_, ?_, ?_⟩
  · simp [unmapTarget, hp0, hpdpt, hp1, hpd, hp2, hhuge]
  · simp [vmmUnmap, hp0, hpdpt, hp1, hpd, hp2, hhuge]
  · exact .inl ((h.forest.below _ m _ _ h2 (by simp) hu2 hp2).resolve_left (by simp [hhuge])).1
  · intro m' π j e hπ
    rw [leaf_setEntry_above h2 (by simp) hπ]
    refine ⟨fun hl => ⟨hl, ?_⟩, And.left⟩
    intro hc
    obtain ⟨rfl, rfl, rfl⟩ : m' = _ ∧ π = _ ∧ j = _ := by simpa using hc
    exact h.not_leaf [] h2 hnl hidx e hl
  · simpa using ⟨⟨_, h2, h1⟩, ⟨_, h1, hm⟩⟩
  · simp [hpp.symm, hmd.symm]
  · simp [hmp]
  · simp [hmp]
  · intro ho
    obtain ⟨k, hk, ⟨hk', hp⟩ | ⟨hk', hp⟩ | ⟨hc, -⟩⟩ := hother ho
    · exact ⟨(pdpt, m, pml4Idx virt), by simp, k, hk, hp, by simp [hpp], by simp [hmp.symm, hk']⟩
    · exact ⟨(pd, pdpt, pdptIdx virt), by simp, k, hk, hp, by simp [hk'],
        by simp [hpp.symm, hmd.symm]⟩
    · rw [hhuge] at hc
      cases hc

omit hpath in
theorem Walked.target_page {pt : ℕ} (hw : Walked s place m virt pdpt pd)
    (hhuge : (s.entry pd (pdIdx virt)).has pteHuge = false)
    (hpt : (s.entry pd (pdIdx virt)).frame = pt)
    (h3 : place pt = some (m, [pml4Idx virt, pdptIdx virt, pdIdx virt]))
    (hp3 : (s.entry pt (ptIdx virt)).has ptePresent) : Target big s place m virt pt (ptIdx virt) 0
      [(pt, pd, pdIdx virt), (pd, pdpt, pdptIdx virt), (pdpt, m, pml4Idx virt)] := by
  obtain ⟨hidx, hlast⟩ := pageIdx_eq virt
  have hother := hw.other
  obtain ⟨hm, hp0, hpdpt, h1, hp1, hpd, h2, hp2⟩ := hw
  have hleaf : place pt = some (m, pagePath (virt / pageSize)) := hidx ▸ h3
  have hmp := place_ne hm h1 (by simp)
  have hmd := place_ne hm h2 (by simp)
  have hpp := place_ne h1 h2 (by simp)
  have hmt := place_ne hm h3 (by simp)
  have hpt1 := place_ne h1 h3 (by simp)
  have hpt2 := place_ne h2 h3 (by simp)
  refine ⟨?_, ?_, ⟨_, h3, nofun⟩, .inr ⟨rfl, pt, hleaf, by rw [hlast], hp3⟩, ?_, ?_, ?_, hmt, ?_, ?_,
    ?_⟩
  · simp [unmapTarget, hp0, hpdpt, hp1, hpd, hp2, hhuge, hpt, hp3]
  · simp [vmmUnmap, hp0, hpdpt, hp1, hpd, hp2, hhuge, hpt, hp3]
  · intro m' π j e _
    rw [leaf_clear h.forest hleaf, hlast]
  · simpa using ⟨⟨_, h3, h2⟩, ⟨_, h2, h1⟩, ⟨_, h1, hm⟩⟩
  · simp [hpt2.symm, hpt1.symm, hmt.symm, hpp.symm, hmd.symm]
  · simp [hmp, hmd]
  · simp [hmp, hmd]
  · intro ho
    rw [hpt] at hother
    obtain ⟨k, hk, ⟨hk', hp⟩ | ⟨hk', hp⟩ | ⟨-, hk', hp⟩⟩ := hother ho
    · exact ⟨(pdpt, m, pml4Idx virt), by simp, k, hk, hp, by simp [hpt1],
        by simp [hmp.symm, hpp, hk']⟩
    · exact ⟨(pd, pdpt, pdptIdx virt), by simp, k, hk, hp, by simp [hpt2],
        by simp [hpp.symm, hmd.symm, hk']⟩
    · exact ⟨(pt, pd, pdIdx virt), by simp, k, hk, hp, by simp [hk'],
        by simp [hpt2.symm, hpt1.symm, hmt.symm]⟩

theorem unmapTarget_cases (hm : place m = some (m, [])) :
    (s.unmapTarget m virt = none ∧ s.vmmUnmap m virt = some s ∧
      ∀ e, ¬ Leaf s place m (pagePath (virt / pageSize)) (virt / pageSize % 512) e) ∨
    ∃ t i o l, Target big s place m virt t i o l := by
  obtain ⟨hidx, hlast⟩ := pageIdx_eq virt
  obtain ⟨hu0, hu1, hu2, -⟩ := hidx ▸ hpath
  have habsent {e : PtEntry} (he : e.has ptePresent = false) : ¬ e.Links := by
    intro hl
    rw [hl.1] at he
    cases he
  cases hp0 : (s.entry m (pml4Idx virt)).has ptePresent with
  | false =>
    exact .inl ⟨by simp [unmapTarget, hp0], by simp [vmmUnmap, hp0],
      h.not_leaf [pdptIdx virt, pdIdx virt] hm (habsent hp0) hidx⟩
  | true =>
  obtain ⟨-, h1⟩ := (h.forest.below m m [] _ hm (by simp) hu0 hp0).resolve_right (by simp)
  generalize hpdpt : (s.entry m (pml4Idx virt)).frame = pdpt at *
  cases hp1 : (s.entry pdpt (pdptIdx virt)).has ptePresent with
  | false =>
    exact .inl ⟨by simp [unmapTarget, hpdpt, hp1], by simp [vmmUnmap, hpdpt, hp1],
      h.not_leaf [pdIdx virt] h1 (habsent hp1) hidx⟩
  | true =>
  obtain ⟨-, h2⟩ := (h.forest.below _ m _ _ h1 (by simp) hu1 hp1).resolve_right (by simp)
  generalize hpd : (s.entry pdpt (pdptIdx virt)).frame = pd at *
  cases hp2 : (s.entry pd (pdIdx virt)).has ptePresent with
  | false =>
    exact .inl ⟨by simp [unmapTarget, hpdpt, hpd, hp2],
      by simp [vmmUnmap, hpdpt, hpd, hp2], h.not_leaf [] h2 (habsent hp2) hidx⟩
  | true =>
  have hw : Walked s place m virt pdpt pd := ⟨hm, hp0, hpdpt, h1, hp1, hpd, h2, hp2⟩
  cases hhuge : (s.entry pd (pdIdx virt)).has pteHuge with
  | true => exact .inr ⟨_, _, _, _, hw.target_huge h hpath hhuge⟩
  | false =>
    have h3 := h.forest.below_of_links h2 (by simp) hu2 ⟨hp2, hhuge⟩
    generalize hpt : (s.entry pd (pdIdx virt)).frame = pt at *
    cases hp3 : (s.entry pt (ptIdx virt)).has ptePresent with
    | false =>
      refine .inl ⟨by simp [unmapTarget, hpdpt, hpd, hhuge, hpt, hp3],
        by simp [vmmUnmap, hpdpt, hpd, hhuge, hpt, hp3], ?_⟩
      rintro e ⟨q, hq, rfl, hp⟩
      rw [← hidx] at hq
      rw [← h.forest.inj h3 hq, ← hlast, hp3] at hp
      cases hp
    | true => exact .inr ⟨_, _, _, _, hw.target_page h hhuge hpt h3 hp3⟩

end

theorem unmapTarget_iff {virt : ℕ} (h : Grove own False s place free alloc)
    (hm : place m = some (m, [])) (hpath : OwnPath own [] (pagePath (virt / pageSize)))
    (phys o : ℕ) :
    s.unmapTarget m virt = some (phys, o) ↔
      o = 0 ∧ ∃ e, Leaf s place m (pagePath (virt / pageSize)) (virt / pageSize % 512) e ∧
        e.addr = phys := by
  rcases unmapTarget_cases h hpath hm with ⟨ht, -, hl⟩ | ⟨t, i, o', l, ht⟩
  · rw [ht]
    exact ⟨nofun, fun ⟨_, e, he, _⟩ => absurd he (hl e)⟩
  · obtain ⟨rfl, q, hq, he, hp⟩ := ht.small.resolve_left id
    rw [ht.target, Option.some.injEq, Prod.mk.injEq]
    constructor
    · rintro ⟨rfl, rfl⟩
      exact ⟨rfl, _, ⟨q, hq, he, hp⟩, rfl⟩
    · rintro ⟨rfl, _, ⟨q', hq', rfl, -⟩, rfl⟩
      rw [← he, h.forest.inj hq hq']
      exact ⟨rfl, rfl⟩

/-- What goes back to the allocator with the entry of an address. -/
structure Returned (s : Mmu) (m virt : ℕ) (free : ℕ → List ℕ) (alloc : Set Block)
    (free' : ℕ → List ℕ) (alloc' : Set Block) : Prop where
  cover_eq : cover (blocks free' alloc') = cover (blocks free alloc)
  alloc_sub : alloc' ⊆ alloc
  freed : ∀ phys o p, s.unmapTarget m virt = some (phys, o) → s.Frees phys p → ⟨p, o⟩ ∉ alloc'

/-- `vmm_unmap` takes away the entry and the tables that become empty. The frame that it frees has
to be allocated, and no table. -/
theorem vmmUnmap_unmapped (hown : ∀ π i, own π i → i < 512) (h : Grove own big s place free alloc)
    (hm : place m = some (m, [])) {virt : ℕ} (hpath : OwnPath own [] (pagePath (virt / pageSize)))
    (hfree : ∀ phys o p, s.unmapTarget m virt = some (phys, o) → s.Frees phys p →
      ⟨p, o⟩ ∈ alloc ∧ (o = 0 → place p = none)) :
    ∃ s' place' free' alloc', s.vmmUnmap m virt = some s' ∧
      Unmapped own big s place alloc m virt s' place' free' alloc' ∧
      Returned s m virt free alloc free' alloc' := by
  rcases unmapTarget_cases h hpath hm with ⟨ht, he, hl⟩ | ⟨t, i, o, l, ht⟩
  · refine ⟨s, place, free, alloc, he, .refl h ht hl, rfl, subset_rfl, ?_⟩
    intro phys o p hc
    rw [ht] at hc
    cases hc
  · obtain ⟨π, hpl, hlinks⟩ := ht.placed
    obtain ⟨free1, alloc1, hd, hc1, hf1⟩ := dropRef_dropped h (s.entry t i).addr o
      fun p hf => hfree _ o p ht.target hf
    have hg : Grove own big ((s.dropRef (s.entry t i).addr o).setEntry t i 0) place free1 alloc1 := by
      apply hd.toGrove.setEntry
      intro m' π' hpl' hlen _
      cases hpl.symm.trans hpl'
      rw [hd.entry]
      exact ⟨hlinks hlen, fun hp => absurd hp (by decide)⟩
    obtain ⟨s', place', free', alloc', he', hp', hc', hent'⟩ :=
      vmmPrune_pruned hown l hg ht.chain ht.dist
    have hent1 (q j : ℕ) (hqj : ¬ (q = t ∧ j = i)) :
        ((s.dropRef (s.entry t i).addr o).setEntry t i 0).entry q j = s.entry q j := by
      rw [setEntry_entry, if_neg hqj, hd.entry]
    refine ⟨s', place', free', alloc', ht.run.trans he', Unmapped.of_pruned ht.target hd hpl hp' ?_
      fun m' π' j e hπ' _ => ht.leaf_iff m' π' j e hπ', hc'.trans hc1,
      hp'.alloc_sub.trans hd.alloc_sub, ?_⟩
    · rintro j (hj | ho)
      · rw [hent' m j fun x hx hc => hj (hc.2.trans (ht.top x hx hc.1)),
          hent1 m j fun hc => ht.ne_root hc.1]
      · obtain ⟨x, hx, k, hk, hp, hxt, hup⟩ := ht.other ho
        rw [← hent1 m j fun hc => ht.ne_root hc.1]
        exact vmmPrune_stops he' hx hk ((hent1 x.1 k hxt).symm ▸ hp) hup
          fun y hy hc => ht.above y hy hc.1
    · intro phys o' p hto hf hmem
      cases ht.target.symm.trans hto
      exact hf1 p hf (hp'.alloc_sub hmem)

end Mmu
end Doppio
