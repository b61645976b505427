import Doppio.Mmu.GroveMap

/-! The calls on the kernel's map, one tree over all indices with 2 MiB pages; a call writes to that
tree only. -/
namespace Doppio
open Function
open Buddy Loop List Option
namespace Mmu
open Pmm

def AnyIdx (_ : List ℕ) (i : ℕ) : Prop := i < 512

variable {s s' : Mmu} {place place' : Places} {free free' : ℕ → List ℕ}
  {alloc alloc' : Set Block} {t q m i virt : ℕ} {π : List ℕ} {e : PtEntry}

/-- A call at `virt` of the map `m`: pages in use that are no tables stay as they are, and so do the
entries of the map, except that the one for `virt` may come in. -/
structure Confined (s : Mmu) (place : Places) (alloc : Set Block) (m virt : ℕ) (s' : Mmu)
    (place' : Places) (free' : ℕ → List ℕ) (alloc' : Set Block) : Prop
    extends Grove AnyIdx True s' place' free' alloc' where
  kernelMap : s'.kernelMap = s.kernelMap
  root : place m = some (m, []) → place' m = some (m, [])
  kept : ∀ b ∈ alloc, (b.order = 0 → place b.head = none) →
    b ∈ alloc' ∧ (b.order = 0 → place' b.head = none ∧ s'.entry b.head = s.entry b.head)
  top : ∀ j, j ≠ pml4Idx virt ∨ (s.entry m j).has ptePresent →
    (s'.entry m j).has ptePresent = (s.entry m j).has ptePresent ∧
      (s'.entry m j).frame = (s.entry m j).frame

theorem Confined.trans {s'' : Mmu} {place'' : Places} {free'' : ℕ → List ℕ} {alloc'' : Set Block}
    (h : Confined s place alloc m virt s' place' free' alloc')
    (h' : Confined s' place' alloc' m virt s'' place'' free'' alloc'') :
    Confined s place alloc m virt s'' place'' free'' alloc'' where
  toGrove := h'.toGrove
  kernelMap := h'.kernelMap.trans h.kernelMap
  root := fun hm => h'.root (h.root hm)
  kept := by
    intro b hb hn
    obtain ⟨hb1, hn1⟩ := h.kept b hb hn
    obtain ⟨hb2, hn2⟩ := h'.kept b hb1 fun ho => (hn1 ho).1
    exact ⟨hb2, fun ho => ⟨(hn2 ho).1, (hn2 ho).2.trans (hn1 ho).2⟩⟩
  top := by
    intro j hj
    obtain ⟨hp, hf⟩ := h.top j hj
    obtain ⟨hp', hf'⟩ := h'.top j (hj.imp_right fun hj => hp.trans hj)
    exact ⟨hp'.trans hp, hf'.trans hf⟩

theorem Grown.confined {is : List ℕ} (hm : place m = some (m, []))
    (h0 : Grove AnyIdx True s place free alloc)
    (h : Grown AnyIdx True s place alloc m [] (pml4Idx virt :: is) s' place' free' alloc') :
    Confined s place alloc m virt s' place' free' alloc' where
  toGrove := h.toGrove
  kernelMap := h.kernelMap
  root := (h.root_iff h0).mpr
  kept := by
    intro b hb hn
    refine ⟨h.alloc_sub hb, fun ho => ?_⟩
    have hb' : (⟨b.head, 0⟩ : Block) ∈ alloc := ho ▸ hb
    refine ⟨(h.place_eq b.head hb').trans (hn ho), ?_⟩
    funext j
    apply h.entry_eq b.head j hb'
    rintro ⟨pre, rest, -, hp⟩
    simp [hn ho] at hp
  top := by
    intro j hj
    have hma := h0.table_alloc m _ hm
    by_cases hp : (s.entry m j).has ptePresent
    · obtain ⟨hp', hf'⟩ := h.present m j hma hp
      exact ⟨hp'.trans hp.symm, hf'⟩
    · rw [h.entry_eq m j hma]
      · exact ⟨rfl, rfl⟩
      · -- the walk goes through one entry of the map only
        intro hw
        rcases onWalk_cons.mp hw with ⟨rfl, -⟩ | ⟨pre, rest, -, hp'⟩
        · exact hj.elim (fun hc => hc rfl) hp
        · have := congrArg (fun x => x.2.length) (some.inj (hm.symm.trans hp'))
          simp at this

theorem ownPath_anyIdx {is : List ℕ} (h : ∀ i ∈ is, i < 512) (π : List ℕ) :
    OwnPath AnyIdx π is := by
  induction is generalizing π with
  | nil => trivial
  | cons i is ih => exact ⟨h i (by simp), ih (fun j hj => h j (by simp [hj])) _⟩

theorem pml4Idx_lt (v : ℕ) : pml4Idx v < 512 := by
  rw [pml4Idx_eq]
  exact Nat.mod_lt _ (by decide)

theorem pdptIdx_lt (v : ℕ) : pdptIdx v < 512 := by
  rw [pdptIdx_eq]
  exact Nat.mod_lt _ (by decide)

theorem pdIdx_lt (v : ℕ) : pdIdx v < 512 := by
  rw [pdIdx_eq]
  exact Nat.mod_lt _ (by decide)

theorem ownPath_page (v : ℕ) : OwnPath AnyIdx [] (pagePath v) := by
  apply ownPath_anyIdx
  intro i hi
  simp only [pagePath, mem_cons, not_mem_nil, or_false] at hi
  rcases hi with rfl | rfl | rfl <;> exact Nat.mod_lt _ (by decide)

theorem vmmMapHugeLoop_grown (is : List ℕ) (h : Grove AnyIdx True s place free alloc)
    (ht : place t = some (m, π)) (his : ∀ i ∈ is, i < 512) (hlen : π.length + is.length ≤ 2) :
    ∃ s' r place' free' alloc', vmmMapHugeLoop is s t = some (s', r) ∧
      Grown AnyIdx True s place alloc m π is s' place' free' alloc' ∧
      (∀ t', r = some t' → place' t' = some (m, π ++ is)) := by
  induction is generalizing s t π place free alloc with
  | nil =>
    refine ⟨s, some t, place, free, alloc, rfl, Grown.refl h m π [], ?_⟩
    rintro t' ⟨⟩
    rw [append_nil]
    exact ht
  | cons i is ih =>
    have hlen' := hlen
    rw [length_cons] at hlen'
    have hi : i < 512 := his i (by simp)
    have hrest (s1 : Mmu) (t1 : ℕ) (place1 : Places) (free1 : ℕ → List ℕ) (alloc1 : Set Block)
        (hg1 : Grown AnyIdx True s place alloc m π [i] s1 place1 free1 alloc1)
        (ht1 : place1 t1 = some (m, π ++ [i])) :
        ∃ s' r place' free' alloc', vmmMapHugeLoop is s1 t1 = some (s', r) ∧
          Grown AnyIdx True s place alloc m π (i :: is) s' place' free' alloc' ∧
          (∀ t', r = some t' → place' t' = some (m, π ++ i :: is)) := by
      obtain ⟨s2, r2, place2, free2, alloc2, he2, hg2, hr2⟩ := ih hg1.toGrove ht1
        (fun j hj => his j (by simp [hj]))
        (by rw [length_append, length_singleton]; omega)
      refine ⟨s2, r2, place2, free2, alloc2, he2, hg1.trans (by omega) hg2, ?_⟩
      intro t' ht'
      rw [hr2 t' ht', append_assoc]
      rfl
    unfold vmmMapHugeLoop
    by_cases hp : (s.entry t i).has ptePresent
    · rw [if_pos hp]
      obtain ⟨-, hplace⟩ := (h.forest.below t m π i ht (by omega) hi hp).resolve_right
        fun hb => by omega
      exact hrest s _ place free alloc (Grown.refl h m π [i]) hplace
    · rw [if_neg hp]
      rw [Bool.not_eq_true] at hp
      rcases newTable_grown h ht (by omega) hi hp with
        ⟨s1, place1, free1, alloc1, he, hg, -, hplace, -⟩ | ⟨s1, he, hg, -⟩
      · rw [he]
        exact hrest s1 _ place1 free1 alloc1 hg hplace
      · rw [he]
        refine ⟨s1, none, place, free, alloc, rfl,
          hg.trans (by omega) (Grown.refl hg.toGrove m _ is), ?_⟩
        nofun

/-- Only the entries of a page table and reference counts differ. -/
structure OnlyTable (s : Mmu) (pt : ℕ) (s' : Mmu) : Prop where
  recounted : s.pmm.Recounted s'.pmm
  kernelMap : s'.kernelMap = s.kernelMap
  entry : ∀ q, q ≠ pt → s'.entry q = s.entry q

theorem freePtLoop_spec (s : Mmu) (pt n : ℕ) :
    ∃ s', forUpTo (fun i s =>
        let e := s.entry pt i
        if e.has ptePresent then some ((s.decRef e.addr).setEntry pt i 0) else some s) n s =
          some s' ∧ OnlyTable s pt s' := by
  apply forUpTo_invariant (P := fun _ => OnlyTable s pt)
  · exact ⟨.refl _, rfl, fun _ _ => rfl⟩
  · rintro i - s1 ⟨hr, hk, hent⟩
    by_cases hp : (s1.entry pt i).has ptePresent
    · have hd := decRef_recounted s1 (s1.entry pt i).addr
      refine ⟨(s1.decRef (s1.entry pt i).addr).setEntry pt i 0, by simp only [hp, if_true],
        hr.trans hd.pmm, hd.kernelMap.trans hk, ?_⟩
      intro q hq
      rw [← hent q hq]
      funext j
      rw [setEntry_entry, if_neg fun hc => hq hc.1, hd.entry]
    · exact ⟨s1, by simp only [hp, Bool.false_eq_true, if_false], hr, hk, hent⟩

theorem splitLoop_spec (s : Mmu) (pt n : ℕ) (huge flags : PtEntry) :
    ∃ s', forUpTo (fun j s =>
        let pagePhys := huge + BitVec.ofNat 64 (j * pageSize)
        some ((s.setEntry pt j (pagePhys ||| flags)).incRef pagePhys.toNat)) n s = some s' ∧
      OnlyTable s pt s' := by
  apply forUpTo_invariant (P := fun _ => OnlyTable s pt)
  · exact ⟨.refl _, rfl, fun _ _ => rfl⟩
  · rintro j - s1 ⟨hr, hk, hent⟩
    let page := huge + BitVec.ofNat 64 (j * pageSize)
    have hi := incRef_recounted (s1.setEntry pt j (page ||| flags)) page.toNat
    refine ⟨_, rfl, hr.trans hi.pmm, hi.kernelMap.trans hk, ?_⟩
    intro q hq
    rw [← hent q hq]
    funext k
    rw [hi.entry, setEntry_entry, if_neg fun hc => hq hc.1]

section
variable (h : Grove AnyIdx True s place free alloc)
include h

theorem Grove.confined_recounted (hr : Recounted s s')
    (m virt : ℕ) : Confined s place alloc m virt s' place free alloc where
  toGrove := h.recounted hr
  kernelMap := hr.kernelMap
  root := id
  kept := fun b hb hn => ⟨hb, fun ho => ⟨hn ho, congrFun hr.entry _⟩⟩
  top := fun j _ => by rw [hr.entry]; exact ⟨rfl, rfl⟩

section
variable (hm : place m = some (m, []))
include hm

theorem Grove.confined_setEntry
    (ht : place t = some (m, π)) (hπ : π ≠ [])
    (hw : π.length < 3 → ¬ (s.entry t i).Links ∧
      (e.has ptePresent → π.length = 2 ∧ e.has pteHuge)) (virt : ℕ) :
    Confined s place alloc m virt (s.setEntry t i e) place free alloc where
  toGrove := by
    apply h.setEntry
    intro m' π' hp hlen _
    cases hp.symm.trans ht
    exact ⟨(hw hlen).1, fun hpres => ⟨trivial, (hw hlen).2 hpres⟩⟩
  kernelMap := rfl
  root := id
  kept := by
    intro b hb hn
    refine ⟨hb, fun ho => ⟨hn ho, ?_⟩⟩
    funext j
    rw [setEntry_entry, if_neg]
    rintro ⟨hbt, -⟩
    simp [← hbt, hn ho] at ht
  top := by
    intro j _
    rw [setEntry_entry, if_neg]
    · exact ⟨rfl, rfl⟩
    · rintro ⟨rfl, -⟩
      cases hm.symm.trans ht
      exact hπ rfl

theorem vmmMap_confined
    (virt phys : ℕ) (flags : PtEntry) :
    ∃ s' ok place' free' alloc', s.vmmMap m virt phys flags = some (s', ok) ∧
      Confined s place alloc m virt s' place' free' alloc' := by
  obtain ⟨s1, r, place', free', alloc', he, hg, hr, -⟩ :=
    vmmMap_grown h hm (ownPath_page (virt / pageSize)) phys flags
  rw [← (pageIdx_eq virt).1] at hg hr
  have hc := hg.confined hm h
  cases r with
  | none => exact ⟨s1, false, place', free', alloc', he, hc⟩
  | some t =>
    refine ⟨_, true, place', free', alloc', he, hc.trans ?_⟩
    have hm' := hc.root hm
    have ht := hr t rfl
    -- the counts change, then the entry, then the counts again
    let s2 := if (s1.entry t (virt / pageSize % 512)).has ptePresent then
      s1.decRef (s1.entry t (virt / pageSize % 512)).addr else s1.incRef (t * pageSize)
    have hr2 : Recounted s1 s2 := by
      unfold s2
      split_ifs
      · exact decRef_recounted _ _
      · exact incRef_recounted _ _
    have h2 := hc.toGrove.confined_recounted hr2 m virt
    have h3 := h2.toGrove.confined_setEntry hm' ht (by simp)
      (i := virt / pageSize % 512) (e := (BitVec.ofNat 64 phys &&& pageAddrMask) ||| flags)
      (nofun) virt
    exact (h2.trans h3).trans (h3.toGrove.confined_recounted (incRef_recounted _ phys) m virt)

theorem vmmFreePt_confined {pd pt k : ℕ}
    (hpd : place pd = some (m, π)) (hlen : π.length = 2)
    (hpt : place pt = some (m, π ++ [k])) (he : e.has pteHuge) (virt : ℕ) :
    ∃ s' free' alloc', s.vmmFreePt pt = some s' ∧
      Confined s place alloc m virt (s'.setEntry pd k e) (update place pt none) free' alloc' := by
  obtain ⟨s1, he1, hr1, hk1, hent1⟩ := freePtLoop_spec s pt 512
  have hpta := h.table_alloc pt _ hpt
  have hwf1 := h.wf.recounted hr1
  obtain ⟨free', hf⟩ := pmmFreePages_spec hwf1 hpta
  let s2 : Mmu := { s1 with pmm := s1.pmm.pmmFreePages pt 0 }
  have hmt : m ≠ pt := place_ne hm hpt (by simp)
  have hmd : m ≠ pd := place_ne hm hpd (by simp [hlen])
  have hentry (q j : ℕ) (hq : q ≠ pt) (hqj : ¬ (q = pd ∧ j = k)) :
      (s2.setEntry pd k e).entry q j = s.entry q j := by
    rw [setEntry_entry, if_neg hqj]
    exact congrFun (hent1 q hq) j
  have hforest : Forest AnyIdx True (s2.setEntry pd k e) (update place pt none) := by
    apply h.forest.erase hpt hpd
    · intro j _ hlt
      omega
    · intro _
      rw [setEntry_entry, if_pos ⟨rfl, rfl⟩]
      exact ⟨trivial, hlen, he⟩
    · exact hentry
  have hwf2 : (s2.setEntry pd k e).pmm.Wf free' (alloc \ {⟨pt, 0⟩}) := hf.wf
  refine ⟨s2, free', alloc \ {⟨pt, 0⟩}, ?_, ⟨⟨hforest, hwf2, ?_, ?_⟩, hk1, ?_, ?_, ?_⟩⟩
  · unfold vmmFreePt
    rw [he1]
    unfold pageFree
    simp only [bind_eq_bind, bind_some]
    rw [hwf1.physToPage hpta]
    rfl
  · change (s1.pmm.pmmFreePages pt 0).totalPages ≤ _
    rw [hf.keeps.totalPages, hr1.totalPages]
    exact h.total_le
  · intro p x hp
    obtain ⟨hne, hp⟩ := Places.update_none.mp hp
    exact ⟨h.table_alloc p x hp, fun hc => hne (congrArg Block.head hc)⟩
  · intro hm
    exact Places.update_none.mpr ⟨hmt, hm⟩
  · intro b hb hn
    have hbt (ho : b.order = 0) : b.head ≠ pt := by
      intro hc
      simp [← hc, hn ho] at hpt
    refine ⟨⟨hb, ?_⟩, fun ho => ⟨?_, ?_⟩⟩
    · rintro rfl
      exact hbt rfl rfl
    · rw [update_of_ne (hbt ho)]
      exact hn ho
    · funext j
      apply hentry _ _ (hbt ho)
      rintro ⟨hc, -⟩
      simp [← hc, hn ho] at hpd
  · intro j _
    rw [hentry m j hmt fun hc => hmd hc.1]
    exact ⟨rfl, rfl⟩

theorem vmmMapHuge_confined
    (virt phys : ℕ) (flags : PtEntry) :
    ∃ s' ok place' free' alloc', s.vmmMapHuge m virt phys flags = some (s', ok) ∧
      Confined s place alloc m virt s' place' free' alloc' := by
  unfold vmmMapHuge
  by_cases halign : virt &&& 0x1FFFFF ≠ 0 ∨ phys &&& 0x1FFFFF ≠ 0
  · rw [if_pos halign]
    exact ⟨s, false, place, free, alloc, rfl, h.confined_recounted (.refl s) m virt⟩
  rw [if_neg halign]
  obtain ⟨s1, r, place1, free1, alloc1, he1, hg1, hr1⟩ := vmmMapHugeLoop_grown
    [pml4Idx virt, pdptIdx virt] h hm
    (by simpa using ⟨pml4Idx_lt virt, pdptIdx_lt virt⟩) (by simp)
  have hc1 := hg1.confined hm h
  rw [he1]
  cases r with
  | none => exact ⟨s1, false, place1, free1, alloc1, rfl, hc1⟩
  | some pd =>
  have hpd := hr1 pd rfl
  have hm1 := hc1.root hm
  let newE : PtEntry := (BitVec.ofNat 64 phys &&& pageAddrMask) ||| flags ||| pteHuge
  have hnew : newE.has pteHuge := by
    rw [PtEntry.has_or, show pteHuge.has pteHuge = true by decide, Bool.or_true]
  -- the entry of the directory is written, and then the count of the page goes up
  have hend (s2 : Mmu) (place2 : Places) (free2 : ℕ → List ℕ) (alloc2 : Set Block)
      (hc2 : Confined s1 place1 alloc1 m virt (s2.setEntry pd (pdIdx virt) newE) place2 free2
        alloc2) :
      Confined s place alloc m virt ((s2.setEntry pd (pdIdx virt) newE).incRef phys) place2 free2
        alloc2 :=
    (hc1.trans hc2).trans (hc2.toGrove.confined_recounted (incRef_recounted _ phys) m virt)
  -- an entry that names no table
  have hplain (s2 : Mmu) (hr : Recounted s1 s2) (hnl : ¬ (s1.entry pd (pdIdx virt)).Links) :
      Confined s1 place1 alloc1 m virt (s2.setEntry pd (pdIdx virt) newE) place1 free1 alloc1 := by
    have hc2 := hc1.toGrove.confined_recounted hr m virt
    refine hc2.trans (hc2.toGrove.confined_setEntry hm1 hpd (by simp) ?_ virt)
    intro _
    rw [hr.entry]
    exact ⟨hnl, fun _ => ⟨rfl, hnew⟩⟩
  simp only [bind_eq_bind, bind_some]
  by_cases hp : (s1.entry pd (pdIdx virt)).has ptePresent
  · by_cases hh : (s1.entry pd (pdIdx virt)).has pteHuge
    · rw [if_pos hp, if_pos hh]
      refine ⟨_, true, place1, free1, alloc1, rfl, hend _ _ _ _ (hplain _ (decRef_recounted _ _) ?_)⟩
      intro hl
      simp [hl.2] at hh
    · rw [if_pos hp, if_neg hh]
      rw [Bool.not_eq_true] at hh
      have hpt := hc1.forest.below_of_links hpd (by simp) (pdIdx_lt virt) ⟨hp, hh⟩
      obtain ⟨s2, free2, alloc2, he2, hc2⟩ :=
        vmmFreePt_confined hc1.toGrove hm1 hpd (by simp) hpt hnew virt
      rw [he2]
      exact ⟨_, true, _, free2, alloc2, rfl, hend _ _ _ _ hc2⟩
  · rw [if_neg hp]
    refine ⟨_, true, place1, free1, alloc1, rfl, hend _ _ _ _ (hplain _ (incRef_recounted _ _) ?_)⟩
    exact fun hl => hp hl.1

theorem mmuSplitHugePage_confined
    (virt : ℕ) :
    ∃ s' place' free' alloc', s.mmuSplitHugePage m virt = some s' ∧
      Confined s place alloc m virt s' place' free' alloc' := by
  unfold mmuSplitHugePage
  by_cases hcond : ((s.entry m (pml4Idx virt)).has ptePresent &&
      (s.entry (s.entry m (pml4Idx virt)).frame (pdptIdx virt)).has ptePresent &&
      (s.entry (s.entry (s.entry m (pml4Idx virt)).frame (pdptIdx virt)).frame
        (pdIdx virt)).has ptePresent &&
      (s.entry (s.entry (s.entry m (pml4Idx virt)).frame (pdptIdx virt)).frame
        (pdIdx virt)).has pteHuge) = true
  swap
  · rw [if_neg hcond]
    exact ⟨s, place, free, alloc, rfl, h.confined_recounted (.refl s) m virt⟩
  rw [if_pos hcond]
  simp only [Bool.and_eq_true] at hcond
  obtain ⟨⟨⟨hp0, hp1⟩, -⟩, hhuge⟩ := hcond
  obtain ⟨-, h1⟩ := (h.forest.below m m [] _ hm (by simp) (pml4Idx_lt virt) hp0).resolve_right
    (by simp)
  obtain ⟨-, h2⟩ := (h.forest.below _ m _ _ h1 (by simp) (pdptIdx_lt virt) hp1).resolve_right
    (by simp)
  generalize (s.entry (s.entry m (pml4Idx virt)).frame (pdptIdx virt)).frame = pd at *
  generalize hflags : s.entry pd (pdIdx virt) &&& ~~~(pageAddrMask ||| pteHuge) = flags
  unfold pageAlloc
  rcases pmmAllocPages_spec h.wf 0 with ⟨pmm1, free1, pt, he, ha⟩ | ⟨he, -⟩
  · rw [he]
    simp only [bind_eq_bind, bind_some, Option.pure_def]
    let s1 : Mmu := { s with pmm := pmm1 }
    obtain ⟨s2, he2, hr2, hk2, hent2⟩ := splitLoop_spec (s1.zeroPage pt) pt 512
      (s.entry pd (pdIdx virt) &&& pageAddrMask) flags
    rw [he2]
    let s3 := s2.decRef (s.entry pd (pdIdx virt)).addr
    let s4 := s3.modifyPage pt fun q => { q with refCount := 0 }
    let s5 := s4.incRef (pd * pageSize)
    let newE : PtEntry := PtEntry.ofPage pt ||| ptePresent ||| pteWritable ||| pteUser
    have hr5 : Recounted s2 s5 := ((decRef_recounted s2 _).trans
      (Recounted.modifyPage s3 pt fun _ => 0)).trans (incRef_recounted s4 _)
    have hr : pmm1.Recounted s5.pmm := hr2.trans hr5.pmm
    have hptn := h.place_eq_none ha.fresh
    obtain ⟨hpres, hnh, hframe⟩ := tableEntry_spec (h.new_lt ha)
    have hentry (q j : ℕ) (hq : q ≠ pt) (hqj : ¬ (q = pd ∧ j = pdIdx virt)) :
        (s5.setEntry pd (pdIdx virt) newE).entry q j = s.entry q j := by
      rw [setEntry_entry, if_neg hqj, hr5.entry, hent2 q hq, zeroPage_entry, if_neg hq]
    have hself : (s5.setEntry pd (pdIdx virt) newE).entry pd (pdIdx virt) = newE := by simp
    have hpdm : m ≠ pd := place_ne hm h2 (by simp)
    have hforest : Forest AnyIdx True (s5.setEntry pd (pdIdx virt) newE)
        (update place pt (some (m, [] ++ [pml4Idx virt] ++ [pdptIdx virt] ++ [pdIdx virt]))) := by
      apply h.forest.insert h2 (by simp) (pdIdx_lt virt) _ hptn
      · rw [hself]
        exact ⟨hpres, hnh⟩
      · rw [hself]
        exact hframe
      · nofun
      · exact hentry
      · intro hl
        simp [hl.2] at hhuge
    refine ⟨s5.setEntry pd (pdIdx virt) newE, _, free1, insert ⟨pt, 0⟩ alloc, rfl,
      ⟨h.withTable ha hforest hr, ?_, ?_, ?_, ?_⟩⟩
    · exact hr5.kernelMap.trans hk2
    · intro hm
      rw [update_of_ne (ha.ne (h.table_alloc m _ hm)), hm]
    · intro b hb hn
      refine ⟨.inr hb, fun ho => ?_⟩
      have hbt : b.head ≠ pt := ha.ne (ho ▸ hb)
      refine ⟨by rw [update_of_ne hbt, hn ho], ?_⟩
      funext j
      apply hentry _ _ hbt
      rintro ⟨hc, -⟩
      simp [← hc, hn ho] at h2
    · intro j _
      rw [hentry m j (ha.ne (h.table_alloc m _ hm)) fun hc => hpdm hc.1]
      exact ⟨rfl, rfl⟩
  · rw [he]
    refine ⟨_, place, free, alloc, rfl, h.confined_recounted ?_ m virt⟩
    exact ⟨⟨fun _ => rfl, rfl, rfl⟩, rfl, rfl⟩

theorem mmuProtectPage_confined
    (virt : ℕ) (prot : BitVec 32) :
    ∃ s' place' free' alloc', s.mmuProtectPage m virt prot = some s' ∧
      Confined s place alloc m virt s' place' free' alloc' := by
  -- the end: the entry of the page gets other flags, if it is there
  have hend (s1 : Mmu) (place1 : Places) (free1 : ℕ → List ℕ) (alloc1 : Set Block) (t : ℕ)
      (hc : Confined s place alloc m virt s1 place1 free1 alloc1)
      (hd : s1.descend m (pagePath (virt / pageSize)) = some t) :
      ∃ s' place' free' alloc', (if (s1.entry t (virt / pageSize % 512)).has ptePresent then
          some (s1.setEntry t (virt / pageSize % 512)
            (protectedPte (s1.entry t (virt / pageSize % 512)) prot))
        else some s1) = some s' ∧ Confined s place alloc m virt s' place' free' alloc' := by
    split_ifs
    · have ht := hc.forest.place_of_descend (hc.root hm) (ownPath_page _) (by simp [pagePath]) hd
      refine ⟨_, place1, free1, alloc1, rfl, hc.trans (hc.toGrove.confined_setEntry (hc.root hm)
        ht (by simp [pagePath]) ?_ virt)⟩
      intro hlen
      simp [pagePath] at hlen
    · exact ⟨s1, place1, free1, alloc1, rfl, hc⟩
  unfold mmuProtectPage
  rw [vmmGetPte_false]
  simp only [bind_eq_bind, bind_some]
  cases hd : s.descend m (pagePath (virt / pageSize)) with
  | some t =>
    exact hend s place free alloc t (h.confined_recounted (.refl s) m virt) hd
  | none =>
    obtain ⟨s1, place1, free1, alloc1, he1, hc1⟩ := mmuSplitHugePage_confined h hm virt
    rw [he1]
    simp only [bind_some]
    rw [vmmGetPte_false]
    cases hd1 : s1.descend m (pagePath (virt / pageSize)) with
    | some t => exact hend s1 place1 free1 alloc1 t hc1 hd1
    | none => exact ⟨s1, place1, free1, alloc1, rfl, hc1⟩

end

end

theorem mmuProtectPage_absent (prot : BitVec 32)
    (hp : (s.entry m (pml4Idx virt)).has ptePresent = false) :
    s.mmuProtectPage m virt prot = some s := by
  have hd : s.descend m (pagePath (virt / pageSize)) = none := by
    rw [← (pageIdx_eq virt).1]
    unfold descend
    simp [hp]
  have hsplit : s.mmuSplitHugePage m virt = some s := by
    unfold mmuSplitHugePage
    simp [hp]
  unfold mmuProtectPage
  simp [vmmGetPte_false, hd, hsplit]

end Mmu
end Doppio
