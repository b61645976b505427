import Doppio.Mmu.CowFault

/-! All address spaces over any calls: `ref_count` is the number of entries for a frame, a frame is
freed with its last entry, and one with two entries has no writer. -/
namespace Doppio
open Function Option
open Buddy Set
namespace Pmm

def OnFreeList (s : Pmm) (f : ℕ) : Prop :=
  ∃ o < maxOrder, ∃ xs, Linked s.page none (s.freeLists o) xs ∧ ∃ p ∈ xs, f ∈ (Block.mk p o).pages

theorem Linked.unique {page : ℕ → Page} {prev head : Option ℕ} {xs ys : List ℕ}
    (h : Linked page prev head xs) (h' : Linked page prev head ys) : xs = ys := by
  induction xs generalizing prev head ys with
  | nil =>
    cases ys with
    | nil => rfl
    | cons y ys =>
      have : none = some y := Eq.trans (Eq.symm h) h'.1
      cases this
  | cons x xs ih =>
    cases ys with
    | nil =>
      have : none = some x := Eq.trans (Eq.symm h') h.1
      cases this
    | cons y ys =>
      obtain rfl : x = y := some.inj (h.1.symm.trans h'.1)
      rw [ih h.2.2 h'.2.2]

theorem Wf.onFreeList_iff {s : Pmm} {free : ℕ → List ℕ} {alloc : Set Block} {f : ℕ}
    (h : s.Wf free alloc) : s.OnFreeList f ↔ f ∈ freePages free := by
  constructor
  · rintro ⟨o, ho, xs, hxs, p, hp, hf⟩
    rw [hxs.unique (h.shape.linked o ho)] at hp
    exact ⟨⟨p, o⟩, mem_freeBlocks.mpr ⟨ho, hp⟩, hf⟩
  · rintro ⟨b, hb, hf⟩
    rw [mem_freeBlocks] at hb
    exact ⟨b.order, hb.1, free b.order, h.shape.linked _ hb.1, b.head, hb.2, hf⟩

end Pmm

structure Spaces where
  mmu : Mmu
  live : Set ℕ

inductive SpaceCall where
  | createMap
  | map4k (map virt : ℕ) (prot : BitVec 64)
  | cloneMap (parent : ℕ)
  | writeFault (map addr : ℕ)
  | unmap (map virt : ℕ)
  | destroyMap (map : ℕ)

namespace Spaces
open Pmm

noncomputable def mappings (st : Spaces) : Mappings := st.mmu.mappings st.live

section
variable (st : Spaces)

/-- A call that returns without a failed allocation. -/
def Step : SpaceCall → Spaces → Prop
  | .createMap, st' => ∃ p, st.mmu.vmmCreateUserMap = some (st'.mmu, some p) ∧
      st'.live = insert p st.live
  | .map4k map virt prot, st' => ∃ s f, st.mmu.pageAlloc 0 = some (s, some f) ∧
      s.mmuMap4k map virt (f * pageSize) prot = some (st'.mmu, true) ∧ st'.live = st.live
  | .cloneMap parent, st' => ∃ child, st.mmu.mmuCloneMap parent = some (st'.mmu, some child) ∧
      st'.live = insert child st.live
  | .writeFault map addr, st' => ∃ handled, st.mmu.cowFault map addr = some (st'.mmu, handled) ∧
      st'.live = st.live
  | .unmap map virt, st' => st.mmu.vmmUnmap map virt = some st'.mmu ∧ st'.live = st.live
  | .destroyMap map, st' => st.mmu.vmmDestroyMap map = some st'.mmu ∧ st'.live = st.live \ {map}

/-- Maps in use, user pages, and a page is mapped where none was. -/
def Allowed : SpaceCall → Prop
  | .createMap => True
  | .map4k map virt _ => map ∈ st.live ∧ virt / pageSize < userPages ∧
      st.mappings (map, virt / pageSize) = none
  | .cloneMap parent => parent ∈ st.live
  | .writeFault map addr => map ∈ st.live ∧ addr / pageSize < userPages
  | .unmap map virt => map ∈ st.live ∧ virt / pageSize < userPages
  | .destroyMap map => map ∈ st.live

def Few : Prop := ∀ f, refs st.mappings f < 2 ^ 32

/-- After boot: the allocator holds the kernel's map, and there are no others. -/
structure Booted : Prop where
  live : st.live = ∅
  total_le : st.mmu.pmm.totalPages ≤ 2 ^ 40
  wf : ∃ free alloc, st.mmu.pmm.Wf free alloc ∧ ⟨st.mmu.kernelMap, 0⟩ ∈ alloc

structure Sound (place : Places) (free : ℕ → List ℕ) (alloc : Set Block)
    (pages : Set ℕ) : Prop where
  inv : st.mmu.Inv st.live place free alloc pages
  cow : CowSafe st.mappings

end

variable {st st' : Spaces} {place : Places} {free : ℕ → List ℕ} {alloc : Set Block}
  {pages : Set ℕ}

theorem Sound.boot (hlive : st.live = ∅) (htotal : st.mmu.pmm.totalPages ≤ 2 ^ 40)
    (hwf : st.mmu.pmm.Wf free alloc) (hk : ⟨st.mmu.kernelMap, 0⟩ ∈ alloc) :
    Sound st (fun _ => none) free alloc (cover (blocks free alloc)) := by
  have hnone (k : ℕ × ℕ) : st.mmu.mappings st.live k = none := by
    unfold Mmu.mappings
    rw [hlive, if_neg fun hc => hc.1]
  have hno (k : ℕ × ℕ) (e : PtEntry) : st.mmu.mappings st.live k ≠ some e := by
    rw [hnone k]
    simp
  refine ⟨⟨?_, ?_, rfl, ?_⟩, ?_⟩
  · constructor
    · nofun
    · nofun
    · nofun
    · nofun
  · intro m
    simp [hlive]
  · refine ⟨hwf, rfl, htotal, ?_, fun _ _ k e he => absurd he (hno k e), ?_,
      fun k e he => absurd he (hno k e), fun k e he => absurd he (hno k e)⟩
    · rintro p (rfl | hp)
      · exact hk
      · exact absurd rfl hp
    · simp [hnone]
  · intro k k' e e' _ he
    exact absurd he (hno k e)

theorem mmuToX86Flags_spec (prot : BitVec 64) :
    mmuToX86Flags prot &&& pageAddrMask = 0 ∧ (mmuToX86Flags prot).has ptePresent := by
  unfold mmuToX86Flags
  split_ifs <;> decide

/-- The next state, and the frames that lost their last entry. -/
structure Next (st : Spaces) (alloc : Set Block) (st' : Spaces) (place' : Places)
    (free' : ℕ → List ℕ) (alloc' : Set Block) (pages : Set ℕ) : Prop where
  sound : Sound st' place' free' alloc' pages
  released : ∀ f, 0 < refs st.mappings f → refs st'.mappings f = 0 →
    alloc' ⊆ alloc ∧ ⟨f, 0⟩ ∉ alloc'

variable {free' : ℕ → List ℕ}

theorem Next.of_kept {place' : Places} {alloc' : Set Block}
    (h : Sound st' place' free' alloc' pages) (hkeep : ∀ k e, st.mappings k = some e →
      ∃ e', st'.mappings k = some e' ∧ e'.frame = e.frame) :
    Next st alloc st' place' free' alloc' pages := by
  refine ⟨h, ?_⟩
  intro f hpos hzero
  have hle : refs st.mappings f ≤ refs st'.mappings f := Naming.count_le h.inv.held.finite hkeep f
  omega

section
variable (h : Sound st place free alloc pages)
include h

theorem Sound.createMap (hstep : Step st .createMap st') :
    ∃ place' free' alloc', Next st alloc st' place' free' alloc' pages := by
  obtain ⟨p, he, hlive⟩ := hstep
  rcases Mmu.vmmCreateUserMap_spec h.inv with ⟨s', p', free', he', hi, -, -, hmap⟩ | ⟨s', he', -⟩
  · obtain ⟨rfl, hp⟩ := Prod.mk.inj (some.inj (he.symm.trans he'))
    cases hp
    rw [← hlive] at hi hmap
    have hmap' : st'.mappings = st.mappings := hmap
    refine ⟨_, free', _, Next.of_kept ⟨hi, ?_⟩ ?_⟩
    · rw [hmap']
      exact h.cow
    · intro k e hk
      exact ⟨e, by rw [hmap', hk], rfl⟩
  · simp [he'] at he

theorem Sound.map4k_spec {map virt : ℕ} {prot : BitVec 64}
    (hok : Allowed st (.map4k map virt prot)) :
    (∃ s f s' ok place' free' alloc', st.mmu.pageAlloc 0 = some (s, some f) ∧
      s.mmuMap4k map virt (f * pageSize) prot = some (s', ok) ∧
      s'.Inv st.live place' free' alloc' pages ∧
      (PtEntry.ofPage f ||| mmuToX86Flags prot).frame = f ∧
      (∀ k e, st.mappings k = some e → e.frame ≠ f) ∧
      s'.mappings st.live = (if ok then update st.mappings (map, virt / pageSize)
        (some (PtEntry.ofPage f ||| mmuToX86Flags prot)) else st.mappings) ∧
      (freePages free).ncard ≤ (freePages free').ncard + 4 ∧ (ok = false → freePages free' = ∅)) ∨
    (∃ s, st.mmu.pageAlloc 0 = some (s, none) ∧ freePages free = ∅) := by
  obtain ⟨hm, hv, hnone⟩ := hok
  unfold Mmu.pageAlloc
  rcases h.inv.held.pmmAllocPages with
    ⟨pmm1, free1, p, ha, hheld, hfresh, hzero, -, -, hroom⟩ | ⟨pmm1, ha, -, -, hempty⟩
  · left
    have hi : ({ st.mmu with pmm := pmm1 } : Mmu).Inv st.live place free1 (insert ⟨p, 0⟩ alloc)
        pages :=
      ⟨h.inv.placed.congr fun _ _ _ _ _ _ _ => ⟨rfl, rfl, rfl⟩, h.inv.live_iff, h.inv.kernel, hheld⟩
    have hunnamed (k : ℕ × ℕ) (e : PtEntry) (hk : st.mappings k = some e) : e.frame ≠ p := by
      rintro rfl
      exact hfresh (h.inv.held.named_alloc k e hk)
    have hunplaced : p ∉ Mmu.tables st.mmu.kernelMap place := by
      obtain ⟨hpn, hpk⟩ := h.inv.fresh hfresh
      rintro (hc | hc)
      · exact hpk hc
      · exact hc hpn
    have hcount : (pmm1.page p).refCount = BitVec.ofNat 32 (refs st.mappings p) := by
      rw [hzero, Held.refs_eq_zero hunnamed]
      rfl
    obtain ⟨hflags, hpres⟩ := mmuToX86Flags_spec prot
    have hlt : p < 2 ^ 40 := lt_of_lt_of_le (hheld.lt_total (mem_insert _ _)) hheld.total_le
    obtain ⟨s', ok, place', free', alloc', he, hi', hx, hmap, hfail⟩ :=
      Mmu.vmmMap_spec hi hm hv hnone (mem_insert _ _) hunplaced hcount hflags hpres
    refine ⟨_, p, s', ok, place', free', alloc', by rw [ha]; rfl, he, hi', ?_, hunnamed, hmap, ?_,
      hfail⟩
    · rw [PtEntry.frame_or _ hflags, PtEntry.frame_ofPage hlt]
    · have := hx.room
      omega
  · right
    exact ⟨{ st.mmu with pmm := pmm1 }, by rw [ha]; rfl, hempty⟩

theorem Sound.map4k {map virt : ℕ} {prot : BitVec 64}
    (hok : Allowed st (.map4k map virt prot)) (hstep : Step st (.map4k map virt prot) st') :
    ∃ place' free' alloc', Next st alloc st' place' free' alloc' pages := by
  obtain ⟨s, f, ha, he, hlive⟩ := hstep
  rcases h.map4k_spec hok with
    ⟨s1, f1, s', ok, place', free', alloc', ha', he', hi, hframe, hunnamed, hmap, -⟩ | ⟨s1, ha', -⟩
  · obtain ⟨rfl, hf⟩ := Prod.mk.inj (some.inj (ha.symm.trans ha'))
    cases hf
    cases he.symm.trans he'
    rw [if_pos rfl, ← hlive] at hmap
    rw [← hlive] at hi
    have hmap' : st'.mappings = _ := hmap
    refine ⟨place', free', alloc', Next.of_kept ⟨hi, ?_⟩ ?_⟩
    · rw [hmap']
      apply h.cow.update
      intro k' g _ hg hf
      exact absurd (hf.trans hframe) (hunnamed k' g hg)
    · intro k e hk
      refine ⟨e, ?_, rfl⟩
      rw [hmap', update_of_ne, hk]
      rintro rfl
      simp [hok.2.2] at hk
  · rw [ha'] at ha
    exact absurd (Prod.mk.inj (some.inj ha)).2 (by simp)

theorem Sound.cloneMap {parent : ℕ}
    (hm : parent ∈ st.live) (hstep : Step st (.cloneMap parent) st') :
    ∃ place' free' alloc', Next st alloc st' place' free' alloc' pages := by
  obtain ⟨child, he, hlive⟩ := hstep
  rcases Mmu.mmuCloneMap_spec h.inv h.cow hm with
    ⟨s', child', place', free1, free', alloc', he', hchild, -, hc⟩ | ⟨s', he', -⟩
  · obtain ⟨rfl, hp⟩ := Prod.mk.inj (some.inj (he.symm.trans he'))
    cases hp
    rw [← hlive] at hc
    refine ⟨place', free', alloc', Next.of_kept ⟨hc.inv, hc.cow⟩ ?_⟩
    intro k e hk
    exact hc.keeps (Mmu.mappings_of_notMem _ hchild) hk
  · simp [he'] at he

theorem Next.onFreeList_iff {place' : Places} {alloc' : Set Block} {f : ℕ}
    (hn : Next st alloc st' place' free' alloc' pages) (hpos : 0 < refs st.mappings f) :
    st'.mmu.pmm.OnFreeList f ↔ refs st'.mappings f = 0 := by
  have hheld := hn.sound.inv.held
  rw [hheld.wf.onFreeList_iff]
  constructor
  · intro hf
    by_contra hne
    obtain ⟨k, e, hk, rfl⟩ := Naming.exists_of_count_pos (Nat.pos_of_ne_zero hne)
    exact hheld.wf.not_mem_of_free hf (hheld.named_alloc k e hk) (Block.head_mem ⟨e.frame, 0⟩)
  · intro hzero
    obtain ⟨hsub, hnot⟩ := hn.released f hpos hzero
    obtain ⟨k, e, hk, rfl⟩ := Naming.exists_of_count_pos hpos
    have hold := h.inv.held.named_alloc k e hk
    -- the page is covered, and an allocated block that covers it would be its own block
    have hcover : e.frame ∈ cover (blocks free' alloc') := by
      rw [hheld.cover_eq, ← h.inv.held.cover_eq]
      exact ⟨⟨e.frame, 0⟩, mem_blocks.mpr (.inr hold), Block.head_mem ⟨e.frame, 0⟩⟩
    obtain ⟨b, hb, hbf⟩ := hcover
    rcases mem_blocks.mp hb with hb | hb
    · exact ⟨b, hb, hbf⟩
    · have heq := h.inv.held.wf.shape.apart.eq_of_mem (mem_blocks.mpr (.inr (hsub hb)))
        (mem_blocks.mpr (.inr hold)) hbf (Block.head_mem ⟨e.frame, 0⟩)
      rw [heq] at hb
      exact absurd hb hnot

section
variable (hfew : Few st)
include hfew

theorem Sound.writeFault {map addr : ℕ}
    (hok : Allowed st (.writeFault map addr)) (hstep : Step st (.writeFault map addr) st') :
    ∃ place' free' alloc', Next st alloc st' place' free' alloc' pages := by
  obtain ⟨handled, he, hlive⟩ := hstep
  rcases Mmu.cowFault_spec h.inv h.cow hok.1 hok.2 hfew with
    ⟨s', ok, free', alloc', he', hr⟩ | ⟨he', -⟩
  · cases he.symm.trans he'
    have hmap : st'.mappings = st'.mmu.mappings st.live := by rw [mappings, hlive]
    refine ⟨place, free', alloc', ⟨?_, ?_⟩, ?_⟩
    · rw [hlive]
      exact hr.inv
    · rw [hmap]
      exact hr.cow
    · intro f hpos hzero
      have := hr.named f hpos
      rw [hmap] at hzero
      omega
  · simp [he'] at he

theorem Sound.unmap {map virt : ℕ}
    (hok : Allowed st (.unmap map virt)) (hstep : Step st (.unmap map virt) st') :
    ∃ place' free' alloc', Next st alloc st' place' free' alloc' pages := by
  obtain ⟨he, hlive⟩ := hstep
  obtain ⟨s', place', free', alloc', he', hi, hmap, hs, hrel⟩ :=
    Mmu.vmmUnmap_spec h.inv hok.1 hok.2 hfew
  cases he.symm.trans he'
  rw [← hlive] at hi
  have hmap' : st'.mappings = st'.mmu.mappings st.live := by rw [mappings, hlive]
  refine ⟨place', free', alloc', ⟨hi, ?_⟩, ?_⟩
  · rw [hmap', hmap]
    exact h.cow.erase _
  · intro f hpos hzero
    rw [hmap'] at hzero
    exact ⟨hs, hrel f hpos hzero⟩

theorem Sound.destroyMap {map : ℕ}
    (hm : map ∈ st.live) (hstep : Step st (.destroyMap map) st') :
    ∃ place' free' alloc', Next st alloc st' place' free' alloc' pages := by
  obtain ⟨he, hlive⟩ := hstep
  obtain ⟨s', place', free', alloc', he', hi, hmap, hs, hrel⟩ :=
    Mmu.vmmDestroyMap_spec h.inv hfew hm
  cases he.symm.trans he'
  rw [← hlive] at hi hmap hrel
  refine ⟨place', free', alloc', ⟨hi, ?_⟩, fun f hpos hzero => ⟨hs, hrel f hpos hzero⟩⟩
  have hold (k : ℕ × ℕ) (e : PtEntry) (hk : st'.mappings k = some e) : st.mappings k = some e := by
    rw [mappings, hmap k] at hk
    split_ifs at hk
    exact hk
  intro k k' e e' hne hk hk' hf
  exact h.cow k k' e e' hne (hold k e hk) (hold k' e' hk') hf

theorem Sound.step {c : SpaceCall} (hok : Allowed st c) (hstep : Step st c st') :
    ∃ place' free' alloc', Next st alloc st' place' free' alloc' pages := by
  cases c with
  | createMap => exact h.createMap hstep
  | map4k map virt prot => exact h.map4k hok hstep
  | cloneMap parent => exact h.cloneMap hok hstep
  | writeFault map addr => exact h.writeFault hfew hok hstep
  | unmap map virt => exact h.unmap hfew hok hstep
  | destroyMap map => exact h.destroyMap hfew hok hstep

theorem Sound.progress {c : SpaceCall}
    (hok : Allowed st c) (hroom : 4 < (freePages free).ncard) : ∃ st', Step st c st' := by
  have hne : freePages free ≠ ∅ := by
    intro hc
    rw [hc, ncard_empty] at hroom
    omega
  cases c with
  | createMap =>
    rcases Mmu.vmmCreateUserMap_spec h.inv with ⟨s', p, free', he, -⟩ | ⟨s', -, -, -, -, hempty⟩
    · exact ⟨⟨s', insert p st.live⟩, p, he, rfl⟩
    · exact absurd hempty hne
  | map4k map virt prot =>
    rcases h.map4k_spec hok with
      ⟨s, f, s', ok, place', free', alloc', ha, he, -, -, -, -, hleft, hfail⟩ | ⟨s, -, hempty⟩
    · cases ok with
      | true => exact ⟨⟨s', st.live⟩, s, f, ha, he, rfl⟩
      | false =>
        rw [hfail rfl, ncard_empty] at hleft
        omega
    · exact absurd hempty hne
  | cloneMap parent =>
    rcases Mmu.mmuCloneMap_spec h.inv h.cow hok with
      ⟨s', child, -, -, -, -, he, -⟩ | ⟨s', -, -, -, hempty⟩
    · exact ⟨⟨s', insert child st.live⟩, child, he, rfl⟩
    · exact absurd hempty hne
  | writeFault map addr =>
    rcases Mmu.cowFault_spec h.inv h.cow hok.1 hok.2 hfew with ⟨s', ok, -, -, he, -⟩ | ⟨-, hempty⟩
    · exact ⟨⟨s', st.live⟩, ok, he, rfl⟩
    · exact absurd hempty hne
  | unmap map virt =>
    obtain ⟨s', -, -, -, he, -⟩ := Mmu.vmmUnmap_spec h.inv hok.1 hok.2 hfew
    exact ⟨⟨s', st.live⟩, he, rfl⟩
  | destroyMap map =>
    obtain ⟨s', -, -, -, he, -⟩ := Mmu.vmmDestroyMap_spec h.inv hfew hok
    exact ⟨⟨s', st.live \ {map}⟩, he, rfl⟩

end

end

/-- While no frame gets more than `2 ^ 32 - 1` entries: its count is the number of its entries, it
is on the free lists exactly when it has lost the last one, and one that is not shared is writable
through no entry once it has two. -/
theorem reaches_counted (h : Booted st)
    (hr : Run.Reaches Step (fun s c => Few s ∧ Allowed s c) st st') (hfew : Few st') :
    (∀ f, 0 < refs st'.mappings f → (st'.mmu.pmm.page f).refCount.toNat = refs st'.mappings f ∧
      ¬ st'.mmu.pmm.OnFreeList f) ∧ CowSafe st'.mappings ∧ ∀ c, Allowed st' c →
      (∀ st'', Step st' c st'' → ∀ f, 0 < refs st'.mappings f →
        (st''.mmu.pmm.OnFreeList f ↔ refs st''.mappings f = 0)) ∧
      (4 < {f | st'.mmu.pmm.OnFreeList f}.ncard → ∃ st'', Step st' c st'') := by
  obtain ⟨free0, alloc0, hwf, hk⟩ := h.wf
  have hinv : ∃ place free alloc, Sound st' place free alloc (cover (blocks free0 alloc0)) := by
    apply hr.invariant
    · rintro s c s' ⟨place, free, alloc, hs⟩ ⟨hfew, hok⟩ hstep
      obtain ⟨place', free', alloc', hn⟩ := hs.step hfew hok hstep
      exact ⟨place', free', alloc', hn.sound⟩
    · exact ⟨_, free0, alloc0, Sound.boot h.live h.total_le hwf hk⟩
  obtain ⟨place, free, alloc, hs⟩ := hinv
  have hheld := hs.inv.held
  refine ⟨?_, hs.cow, ?_⟩
  · intro f hpos
    obtain ⟨k, e, hk, rfl⟩ := Naming.exists_of_count_pos hpos
    constructor
    · rw [hheld.refCount k e hk]
      exact Nat.mod_eq_of_lt (hfew e.frame)
    · rw [hheld.wf.onFreeList_iff]
      intro hf
      exact hheld.wf.not_mem_of_free hf (hheld.named_alloc k e hk) (Block.head_mem ⟨e.frame, 0⟩)
  · intro c hok
    constructor
    · intro st'' hstep f hpos
      obtain ⟨place', free', alloc', hn⟩ := hs.step hfew hok hstep
      exact hn.onFreeList_iff hs hpos
    · intro hroom
      have hset : {f | st'.mmu.pmm.OnFreeList f} = freePages free :=
        Set.ext fun f => hheld.wf.onFreeList_iff
      rw [hset] at hroom
      exact hs.progress hfew hok hroom

/-- `N` free blocks of the largest order behind the page of the kernel's map. -/
def pool (N : ℕ) : Pmm where
  page := fun x =>
    if x % 1024 = 0 ∧ 1 ≤ x / 1024 ∧ x / 1024 ≤ N then
      ⟨if x / 1024 = N then none else some (1024 * (x / 1024 + 1)),
        if x / 1024 = 1 then none else some (1024 * (x / 1024 - 1)), 0, 10, true⟩
    else ⟨none, none, 0, 0, false⟩
  freeLists := fun o => if o = 10 ∧ N ≠ 0 then some 1024 else none
  totalPages := 1024 * (N + 1)
  outOfMemory := []

def poolFree (N o : ℕ) : List ℕ := if o = 10 then (List.range' 1 N).map (1024 * ·) else []

def poolSpaces (N : ℕ) : Spaces := ⟨⟨pool N, fun _ _ => 0, fun _ => 0, 0⟩, ∅⟩

variable {N : ℕ}

theorem mem_poolFree {o x : ℕ} :
    x ∈ poolFree N o ↔ o = 10 ∧ ∃ b, 1 ≤ b ∧ b ≤ N ∧ x = 1024 * b := by
  unfold poolFree
  split_ifs with ho
  · simp only [List.mem_map, List.mem_range'_1, ho, true_and]
    constructor
    · rintro ⟨b, hb, rfl⟩
      exact ⟨b, hb.1, by omega, rfl⟩
    · rintro ⟨b, h1, h2, rfl⟩
      exact ⟨b, by omega, rfl⟩
  · simp [ho]

theorem pool_page {b : ℕ} (h1 : 1 ≤ b) (h2 : b ≤ N) :
    (pool N).page (1024 * b) = ⟨if b = N then none else some (1024 * (b + 1)),
      if b = 1 then none else some (1024 * (b - 1)), 0, 10, true⟩ := by
  have hmod : 1024 * b % 1024 = 0 := Nat.mul_mod_right 1024 b
  have hdiv : 1024 * b / 1024 = b := Nat.mul_div_cancel_left b (by decide)
  unfold pool
  simp only [hmod, hdiv, h1, h2, and_self, if_true]

theorem pool_linked {k b : ℕ} (h1 : 1 ≤ b) (hk : b + k = N + 1) :
    Linked (pool N).page (if b = 1 then none else some (1024 * (b - 1)))
      (if k = 0 then none else some (1024 * b)) ((List.range' b k).map (1024 * ·)) := by
  induction k generalizing b with
  | zero => rfl
  | succ k ih =>
    have hpage := pool_page h1 (show b ≤ N by omega)
    have hnext := ih (b := b + 1) (by omega) (by omega)
    rw [if_neg (by omega)] at hnext
    refine ⟨if_neg (by omega), by rw [hpage], ?_⟩
    rw [hpage]
    have hif : (if b = N then none else some (1024 * (b + 1))) =
        if k = 0 then none else some (1024 * (b + 1)) := by
      by_cases hbN : b = N
      · rw [if_pos hbN, if_pos (by omega)]
      · rw [if_neg hbN, if_neg (by omega)]
    rw [hif]
    exact hnext

theorem mem_blocks_pool {b : Block} :
    b ∈ blocks (poolFree N) {⟨0, 0⟩} ↔ b = ⟨0, 0⟩ ∨ ∃ i, 1 ≤ i ∧ i ≤ N ∧ b = ⟨1024 * i, 10⟩ := by
  rw [mem_blocks, mem_freeBlocks, mem_poolFree]
  constructor
  · rintro (⟨-, ho, i, h1, h2, hi⟩ | hb)
    · right
      exact ⟨i, h1, h2, by rw [← hi, ← ho]⟩
    · exact .inl hb
  · rintro (rfl | ⟨i, h1, h2, rfl⟩)
    · exact .inr rfl
    · exact .inl ⟨show 10 < 11 by decide, rfl, i, h1, h2, rfl⟩

theorem pool_wf (hN : 1024 * (N + 1) ≤ 2 ^ 40) : (pool N).Wf (poolFree N) {⟨0, 0⟩} := by
  constructor
  · constructor
    · intro o _
      unfold poolFree
      by_cases ho : o = 10
      · have := pool_linked (N := N) (k := N) (b := 1) le_rfl (by omega)
        simpa [pool, ho] using this
      · simp [pool, ho, Linked]
    · intro o _
      unfold poolFree
      split_ifs
      · exact (List.nodup_range').map fun a b hab => by simpa using hab
      · exact List.nodup_nil
    · intro o _ p hp
      obtain ⟨rfl, b, h1, h2, rfl⟩ := mem_poolFree.mp hp
      rw [pool_page h1 h2]
      exact ⟨rfl, rfl⟩
    · constructor
      · intro b hb
        rcases mem_blocks_pool.mp hb with rfl | ⟨i, -, -, rfl⟩
        · exact show 0 < 11 by decide
        · exact show 10 < 11 by decide
      · intro b hb
        rcases mem_blocks_pool.mp hb with rfl | ⟨i, -, -, rfl⟩
        · exact Nat.dvd_zero _ 
        · exact ⟨i, rfl⟩
      · intro b hb
        rcases mem_blocks_pool.mp hb with rfl | ⟨i, h1, h2, rfl⟩
        · change 0 + 2 ^ 0 ≤ 1024 * (N + 1)
          omega
        · change 1024 * i + 2 ^ 10 ≤ 1024 * (N + 1)
          omega
      · intro b hb c hc hne
        rw [disjoint_left]
        intro x hxb hxc
        rw [Block.mem_pages] at hxb hxc
        rcases mem_blocks_pool.mp hb with rfl | ⟨i, h1, h2, rfl⟩ <;>
        rcases mem_blocks_pool.mp hc with rfl | ⟨j, h3, -, rfl⟩
        · exact hne rfl
        · simp only at hxb hxc
          omega
        · simp only at hxb hxc
          omega
        · simp only at hxb hxc
          exact hne (by rw [show i = j by omega])
    · rintro b rfl hb
      obtain ⟨ho, -⟩ := mem_poolFree.mp hb
      cases ho
    · change 1024 * (N + 1) ≤ 2 ^ 52
      omega
  · rintro b rfl
    simp [pool]
  · intro x hx
    by_cases hif : x % 1024 = 0 ∧ 1 ≤ x / 1024 ∧ x / 1024 ≤ N
    · refine ⟨⟨1024 * (x / 1024), 10⟩, mem_blocks_pool.mpr (.inr ⟨_, hif.2.1, hif.2.2, rfl⟩), ?_⟩
      rw [Block.mem_pages]
      simp only
      omega
    · unfold pool at hx
      simp [if_neg hif] at hx

theorem ncard_poolFree (N : ℕ) : (freePages (poolFree N)).ncard = 1024 * N := by
  have hset : freePages (poolFree N) = ↑(Finset.Ico 1024 (1024 * (N + 1))) := by
    ext x
    rw [Finset.coe_Ico, mem_Ico]
    constructor
    · rintro ⟨⟨p, o⟩, hb, hx⟩
      obtain ⟨-, hp⟩ := mem_freeBlocks.mp hb
      obtain ⟨rfl, i, h1, h2, rfl⟩ := mem_poolFree.mp hp
      rw [Block.mem_pages] at hx
      simp only at hx
      omega
    · intro hx
      refine ⟨⟨1024 * (x / 1024), 10⟩, mem_freeBlocks.mpr ⟨show 10 < 11 by decide, ?_⟩, ?_⟩
      · exact mem_poolFree.mpr ⟨rfl, x / 1024, by omega, by omega, rfl⟩
      · rw [Block.mem_pages]
        simp only
        omega
  rw [hset, ncard_coe_finset, Nat.card_Ico]
  omega

theorem poolSpaces_booted (hN : 1024 * (N + 1) ≤ 2 ^ 40) : Booted (poolSpaces N) :=
  ⟨rfl, hN, poolFree N, _, pool_wf hN, rfl⟩

/-- Only page `0` of the map `m` has an entry, for the frame `f`. -/
structure OnePage (st : Spaces) (m f : ℕ) : Prop where
  live : m ∈ st.live
  only : ∀ v, st.mappings (m, v) ≠ none → v = 0
  entry : ∃ e, st.mappings (m, 0) = some e ∧ e.frame = f

theorem pool_onePage (h1 : 1 ≤ N) (hN : 1024 * (N + 1) ≤ 2 ^ 40) :
    ∃ st m f place free alloc pages,
      Run.Reaches Step (fun s c => Few s ∧ Allowed s c) (poolSpaces N) st ∧
      Sound st place free alloc pages ∧ OnePage st m f ∧ Few st ∧
      1024 * N ≤ (freePages free).ncard + 5 := by
  have hboot : Sound (poolSpaces N) (fun _ => none) (poolFree N) ({⟨0, 0⟩} : Set Block)
      (cover (blocks (poolFree N) {⟨0, 0⟩})) := Sound.boot rfl hN (pool_wf hN) rfl
  have hcard := ncard_poolFree N
  have hnone : (poolSpaces N).mappings = fun _ => none := by
    funext k
    exact if_neg fun hc => hc.1
  have hfew (s : Spaces) (hs : s.mappings = fun _ => none) : Few s := by
    intro f
    rw [hs, Held.refs_eq_zero (by simp)]
    decide
  rcases Mmu.vmmCreateUserMap_spec hboot.inv with
    ⟨s1, m, free1, he1, hi1, -, hx1, hmap1⟩ | ⟨s1, -, -, -, -, hempty⟩
  · let st1 : Spaces := ⟨s1, insert m (poolSpaces N).live⟩
    have hnone1 : st1.mappings = fun _ => none := hmap1.trans hnone
    have hs1 : Sound st1 _ free1 _ _ := ⟨hi1, by rw [hnone1]; intro k k' e e' _ he; simp at he⟩
    have hstep1 : Step (poolSpaces N) .createMap st1 := ⟨m, he1, rfl⟩
    have hok1 : Allowed st1 (.map4k m 0 mmuFlagsUser) :=
      ⟨mem_insert _ _, by decide, by rw [hnone1]⟩
    have hroom1 := hx1.room
    rcases hs1.map4k_spec hok1 with
      ⟨s, f, s', ok, place', free', alloc', ha, he, hi, hframe, -, hmap, hroom, hfail⟩ |
      ⟨s, -, hempty⟩
    · cases ok with
      | true =>
        let st2 : Spaces := ⟨s', st1.live⟩
        have hmap2 : st2.mappings = update (fun _ => none) (m, 0)
            (some (PtEntry.ofPage f ||| mmuToX86Flags mmuFlagsUser)) := by
          rw [hnone1] at hmap
          exact hmap
        have hstep2 : Step st1 (.map4k m 0 mmuFlagsUser) st2 := ⟨s, f, ha, he, rfl⟩
        obtain ⟨place2, free2, alloc2, hn⟩ := hs1.map4k hok1 hstep2
        refine ⟨st2, m, f, place', free', alloc', _, ?_, ⟨hi, hn.sound.cow⟩, ⟨?_, ?_, ?_⟩, ?_, ?_⟩
        · exact (Run.Reaches.single .createMap ⟨hfew _ hnone, trivial⟩ hstep1).trans
            (.single (.map4k m 0 mmuFlagsUser) ⟨hfew _ hnone1, hok1⟩ hstep2)
        · exact mem_insert _ _
        · intro v hv
          by_contra hne
          rw [hmap2, update_of_ne] at hv
          · exact hv rfl
          · simpa using hne
        · exact ⟨_, by rw [hmap2, update_self], hframe⟩
        · intro g
          rw [hmap2]
          have hins : refs (update (fun _ => none) (m, 0)
              (some (PtEntry.ofPage f ||| mmuToX86Flags mmuFlagsUser))) g = _ :=
            Naming.count_insert (by simp) rfl _ g
          rw [hins]
          change refs (fun _ => none) g + _ < _
          rw [Held.refs_eq_zero (by simp)]
          split_ifs <;> decide
        · omega
      | false =>
        rw [hfail rfl, ncard_empty] at hroom
        omega
    · rw [hempty, ncard_empty] at hroom1
      omega
  · rw [hempty, ncard_empty] at hcard
    omega

theorem Sound.clone_onePage {m f : ℕ} (h : Sound st place free alloc pages) (ho : OnePage st m f)
    (hroom : 4 < (freePages free).ncard) :
    ∃ st' place' free' alloc', Step st (.cloneMap m) st' ∧ Sound st' place' free' alloc' pages ∧
      OnePage st' m f ∧ refs st.mappings f + 1 ≤ refs st'.mappings f ∧
      (freePages free).ncard ≤ (freePages free').ncard + 4 := by
  rcases Mmu.mmuCloneMap_spec h.inv h.cow ho.live with
    ⟨s', child, place', free1, free', alloc', he, hchild, hroom1, hc⟩ | ⟨s', -, -, -, hempty⟩
  · obtain ⟨e, hentry, hframe⟩ := ho.entry
    have hpages : {v | v < userPages ∧ st.mmu.mappings st.live (m, v) ≠ none}.ncard ≤ 1 := by
      rw [← ncard_singleton 0]
      apply ncard_le_ncard _ (finite_singleton 0)
      rintro v ⟨-, hv⟩
      exact ho.only v hv
    have hroom2 := hc.room
    have hcard : (freePages free).ncard ≤ (freePages free').ncard + 4 := by omega
    have hcomplete := hc.complete.resolve_right (by
      intro hempty
      rw [hempty, ncard_empty] at hcard
      omega)
    let st' : Spaces := ⟨s', insert child st.live⟩
    obtain ⟨e', he', hframe'⟩ : ∃ e', st'.mappings (m, 0) = some e' ∧ e'.frame = f := by
      have hpf := hc.parent_frame 0
      rw [show st.mmu.mappings st.live (m, 0) = some e from hentry] at hpf
      obtain ⟨e', he', hf⟩ := map_eq_some_iff.mp hpf
      exact ⟨e', he', hf.trans hframe⟩
    have hnew : st'.mappings (child, 0) = some e' := hcomplete 0 (by decide) e' he'
    refine ⟨st', place', free', alloc', ⟨child, he, rfl⟩, ⟨hc.inv, hc.cow⟩,
      ⟨.inr ho.live, ?_, e', he', hframe'⟩, ?_, hcard⟩
    · intro v hv
      apply ho.only v
      intro hnone
      exact hv ((hc.unmapped_iff v).mp hnone)
    · have hnone : st.mappings (child, 0) = none := Mmu.mappings_of_notMem _ hchild 0
      have hins : refs (update st.mappings (child, 0) (some e')) f = _ :=
        Naming.count_insert h.inv.held.finite hnone e' f
      rw [if_pos hframe'] at hins
      have hle : refs (update st.mappings (child, 0) (some e')) f ≤ refs st'.mappings f := by
        apply Naming.count_le hc.inv.held.finite
        intro k g hk
        by_cases hkc : k = (child, 0)
        · rw [hkc, update_self] at hk
          exact ⟨e', by rw [hkc]; exact hnew, by rw [some.inj hk]⟩
        · rw [update_of_ne hkc] at hk
          exact hc.keeps (Mmu.mappings_of_notMem _ hchild) hk
      rw [hins] at hle
      exact hle
  · rw [hempty, ncard_empty] at hroom
    omega

theorem pool_clones (h1 : 1 ≤ N) (hN : 1024 * (N + 1) ≤ 2 ^ 40) {n : ℕ}
    (hn : 4 * n + 5 < 1024 * N) :
    ∃ st m f place free alloc pages, Run.Reaches Step Allowed (poolSpaces N) st ∧
      Sound st place free alloc pages ∧ OnePage st m f ∧ n + 1 ≤ refs st.mappings f ∧
      1024 * N ≤ (freePages free).ncard + 5 + 4 * n := by
  induction n with
  | zero =>
    obtain ⟨st, m, f, place, free, alloc, pages, hr, hs, ho, -, hroom⟩ := pool_onePage h1 hN
    obtain ⟨e, he, hf⟩ := ho.entry
    exact ⟨st, m, f, place, free, alloc, pages, hr.mono fun _ _ h => h.2, hs, ho,
      hf ▸ hs.inv.held.refs_pos he, hroom⟩
  | succ n ih =>
    obtain ⟨st, m, f, place, free, alloc, pages, hr, hs, ho, hrefs, hroom⟩ := ih (by omega)
    obtain ⟨st', place', free', alloc', hstep, hs', ho', hrefs', hroom'⟩ :=
      hs.clone_onePage ho (by omega)
    exact ⟨st', m, f, place', free', alloc', pages, hr.trans (.single (.cloneMap m) ho.live hstep),
      hs', ho', by omega, by omega⟩

/-- With enough memory, a page is cloned until its entries no longer fit into `ref_count`. -/
theorem refCount_overflows :
    ∃ st st' f, Booted st ∧ Run.Reaches Step Allowed st st' ∧ 0 < refs st'.mappings f ∧
      (st'.mmu.pmm.page f).refCount.toNat ≠ refs st'.mappings f := by
  obtain ⟨st', m, f, -, -, -, -, hr, -, -, hrefs, -⟩ :=
    pool_clones (N := 2 ^ 25) (n := 2 ^ 32 - 1) (by decide) (by decide) (by decide)
  refine ⟨poolSpaces (2 ^ 25), st', f, poolSpaces_booted (by decide), hr, by omega, ?_⟩
  omega

theorem reaches_counted_onePage :
    ∃ st', Run.Reaches Step (fun s c => Few s ∧ Allowed s c) (poolSpaces 1) st' ∧ Few st' ∧
      (∃ f, 0 < refs st'.mappings f) ∧
      (∀ f, 0 < refs st'.mappings f → (st'.mmu.pmm.page f).refCount.toNat = refs st'.mappings f ∧
        ¬ st'.mmu.pmm.OnFreeList f) ∧ CowSafe st'.mappings ∧ ∀ c, Allowed st' c →
        (∀ st'', Step st' c st'' → ∀ f, 0 < refs st'.mappings f →
          (st''.mmu.pmm.OnFreeList f ↔ refs st''.mappings f = 0)) ∧
        (4 < {f | st'.mmu.pmm.OnFreeList f}.ncard → ∃ st'', Step st' c st'') := by
  obtain ⟨st', m, f, place, free, alloc, pages, hr, hs, ho, hfew, -⟩ :=
    pool_onePage (N := 1) le_rfl (by decide)
  obtain ⟨e, he, hf⟩ := ho.entry
  exact ⟨st', hr, hfew, ⟨f, hf ▸ hs.inv.held.refs_pos he⟩,
    reaches_counted (poolSpaces_booted (by decide)) hr hfew⟩

end Spaces
end Doppio
