import Doppio.Mmu.KernelMap

/-! `vmm_init`: the kernel's map over the direct map and the kernel's segments, with a table below
every entry of its upper half. -/
namespace Doppio
open Function Option
open Buddy Loop

structure MemoryRegion where
  base : BitVec 64
  length : BitVec 64

/-- The fields of `Elf64_Phdr` used for the kernel's segments. -/
structure KernelSegment where
  pType : BitVec 32
  pFlags : BitVec 32
  pVaddr : BitVec 64
  pMemsz : BitVec 64

/-- The fields of `g_boot_info` that `vmm_init` reads, and the kernel's program headers. -/
structure BootInfo where
  mmap : List MemoryRegion
  hhdmOffset : BitVec 64
  virtBase : BitVec 64
  physBase : BitVec 64
  segments : List KernelSegment

namespace Mmu
open Pmm

def alignDown (addr align : BitVec 64) : BitVec 64 := addr &&& ~~~(align - 1)

def alignUp (addr align : BitVec 64) : BitVec 64 := (addr + align - 1) &&& ~~~(align - 1)

/-- More turns than 64-bit values. -/
def turns : ℕ := 2 ^ 65

/-- `vmm_map` calls in the kernel's map, results ignored. -/
def mapPages (virt phys : BitVec 64 → BitVec 64) (flags : PtEntry) (start stop : BitVec 64)
    (s : Mmu) : Option Mmu :=
  forWhile (fun i => decide (i < stop)) (· + 0x1000#64) (fun i s => do
    let (s, _) ← s.vmmMap s.kernelMap (virt i).toNat (phys i).toNat flags
    pure s) turns start s

def mapRegion (hhdm : BitVec 64) (s : Mmu) (r : MemoryRegion) : Option Mmu := do
  let base := alignUp r.base 0x200000#64
  let top := alignDown (r.base + r.length) 0x200000#64
  let s ← forWhile (fun phys => decide (phys < top)) (· + 0x200000#64) (fun phys s => do
    let (s, _) ← s.vmmMapHuge s.kernelMap (phys + hhdm).toNat phys.toNat
      (ptePresent ||| pteWritable)
    pure s) turns base s
  let s ← mapPages (· + hhdm) id (ptePresent ||| pteWritable) (alignUp r.base 0x1000#64) base s
  mapPages (· + hhdm) id (ptePresent ||| pteWritable) top
    (alignDown (r.base + r.length) 0x1000#64) s

def mapSegment (virtBase physBase : BitVec 64) (s : Mmu) (ph : KernelSegment) : Option Mmu :=
  if ph.pType ≠ 1 then some s
  else
    let virtStart := alignDown ph.pVaddr 0x1000#64
    let physStart := (virtStart - virtBase) + physBase
    let size := alignUp (ph.pMemsz + ph.pVaddr % 0x1000#64) 0x1000#64
    let flags := ptePresent
    let flags := if ph.pFlags &&& 2 ≠ 0 then flags ||| pteWritable else flags
    let flags := if ph.pFlags &&& 1 = 0 then flags ||| pteNx else flags
    mapPages (virtStart + ·) (physStart + ·) flags 0 size s

/-- One turn of the last loop: a table for an entry without one, if a page is left. -/
def kernelTable (i : ℕ) (s : Mmu) : Option Mmu :=
  if (s.entry s.kernelMap i).has ptePresent then some s
  else do
    match ← s.pageAlloc 0 with
    | (s, none) => pure s
    | (s, some p) =>
      let s := s.zeroPage p
      let s := s.setEntry s.kernelMap i (PtEntry.ofPage p ||| ptePresent ||| pteWritable)
      pure (s.modifyPage p fun q => { q with refCount := 1 })

def vmmInit (boot : BootInfo) (s : Mmu) : Option Mmu := do
  match ← s.pageAlloc 0 with
  | (_, none) => none
  | (s, some p) =>
    let s := { s.zeroPage p with kernelMap := p }
    let s := s.modifyPage p fun q => { q with refCount := 1 }
    let s ← boot.mmap.foldlM (mapRegion boot.hhdmOffset) s
    let s ← boot.segments.foldlM (mapSegment boot.virtBase boot.physBase) s
    forUpTo (fun i s => kernelTable (256 + i) s) 256 s

/-- The kernel's map is a tree, and the blocks `given` are in use for other things. -/
structure KernelTree (s : Mmu) (given : Set Block) (place : Places) (free : ℕ → List ℕ)
    (alloc : Set Block) : Prop where
  grove : Grove AnyIdx True s place free alloc
  root : place s.kernelMap = some (s.kernelMap, [])
  given_alloc : ∀ b ∈ given, b ∈ alloc ∧ (b.order = 0 → place b.head = none)

variable {s s' : Mmu} {given : Set Block} {place place' : Places} {free free' : ℕ → List ℕ}
  {alloc alloc' : Set Block} {virt : ℕ}

theorem KernelTree.confined (h : KernelTree s given place free alloc)
    (hc : Confined s place alloc s.kernelMap virt s' place' free' alloc') :
    KernelTree s' given place' free' alloc' := by
  refine ⟨hc.toGrove, ?_, ?_⟩
  · rw [hc.kernelMap]
    exact hc.root h.root
  · intro b hb
    obtain ⟨hba, hbp⟩ := h.given_alloc b hb
    obtain ⟨hba', hbp'⟩ := hc.kept b hba hbp
    exact ⟨hba', fun ho => (hbp' ho).1⟩

def HasTree (given : Set Block) (s : Mmu) : Prop :=
  ∃ place free alloc, KernelTree s given place free alloc

section
variable (h : HasTree given s)
include h

variable {flags : PtEntry}

theorem HasTree.vmmMap {phys : ℕ} {ok : Bool}
    (hrun : s.vmmMap s.kernelMap virt phys flags = some (s', ok)) : HasTree given s' := by
  obtain ⟨place, free, alloc, ht⟩ := h
  obtain ⟨s1, ok1, place1, free1, alloc1, he, hc⟩ := vmmMap_confined ht.grove ht.root virt phys flags
  cases hrun.symm.trans he
  exact ⟨place1, free1, alloc1, ht.confined hc⟩

theorem HasTree.vmmMapHuge {phys : ℕ} {ok : Bool}
    (hrun : s.vmmMapHuge s.kernelMap virt phys flags = some (s', ok)) : HasTree given s' := by
  obtain ⟨place, free, alloc, ht⟩ := h
  obtain ⟨s1, ok1, place1, free1, alloc1, he, hc⟩ :=
    vmmMapHuge_confined ht.grove ht.root virt phys flags
  cases hrun.symm.trans he
  exact ⟨place1, free1, alloc1, ht.confined hc⟩

theorem HasTree.mapPages {v p : BitVec 64 → BitVec 64} {start stop : BitVec 64}
    (hrun : s.mapPages v p flags start stop = some s') :
    HasTree given s' := by
  refine forWhile_keeps (HasTree given) ?_ h hrun
  intro i s1 s2 h1 he
  obtain ⟨⟨s3, ok⟩, hm, hs⟩ := bind_eq_some_iff.mp he
  cases hs
  exact h1.vmmMap hm

theorem HasTree.mapRegion {hhdm : BitVec 64} {r : MemoryRegion}
    (hrun : mapRegion hhdm s r = some s') : HasTree given s' := by
  obtain ⟨s1, he1, hrun⟩ := bind_eq_some_iff.mp hrun
  obtain ⟨s2, he2, hrun⟩ := bind_eq_some_iff.mp hrun
  have h1 : HasTree given s1 := by
    refine forWhile_keeps (HasTree given) ?_ h he1
    intro i s3 s4 h3 he
    obtain ⟨⟨s5, ok⟩, hm, hs⟩ := bind_eq_some_iff.mp he
    cases hs
    exact h3.vmmMapHuge hm
  exact (h1.mapPages he2).mapPages hrun

theorem HasTree.mapSegment {virtBase physBase : BitVec 64} {ph : KernelSegment}
    (hrun : mapSegment virtBase physBase s ph = some s') :
    HasTree given s' := by
  unfold Mmu.mapSegment at hrun
  by_cases htype : ph.pType ≠ 1
  · rw [if_pos htype] at hrun
    cases hrun
    exact h
  · rw [if_neg htype] at hrun
    exact h.mapPages hrun

end

theorem HasTree.foldlM {α : Type} {body : Mmu → α → Option Mmu}
    (hbody : ∀ s a s', HasTree given s → body s a = some s' → HasTree given s') {as : List α}
    (h : HasTree given s) (hrun : as.foldlM body s = some s') : HasTree given s' := by
  induction as generalizing s with
  | nil =>
    cases hrun
    exact h
  | cons a as ih =>
    obtain ⟨s1, he, hrun⟩ := bind_eq_some_iff.mp hrun
    exact ih (hbody s a s1 h he) hrun

theorem HasTree.kernelTable {i : ℕ} (hi : i < 512) (h : HasTree given s) :
    ∃ s', kernelTable i s = some s' ∧ HasTree given s' := by
  obtain ⟨place, free, alloc, ht⟩ := h
  have hma := ht.grove.table_alloc _ _ ht.root
  unfold Mmu.kernelTable
  by_cases hp : (s.entry s.kernelMap i).has ptePresent
  · rw [if_pos hp]
    exact ⟨s, rfl, place, free, alloc, ht⟩
  rw [if_neg hp]
  unfold pageAlloc
  rcases pmmAllocPages_spec ht.grove.wf 0 with ⟨pmm1, free1, p, he, ha⟩ | ⟨he, -⟩
  · rw [he]
    have hlt := ht.grove.new_lt ha
    let newE : PtEntry := PtEntry.ofPage p ||| ptePresent ||| pteWritable
    have hlinks : newE.Links ∧ newE.frame = p := by
      refine ⟨⟨?_, ?_⟩, ?_⟩
      · rw [PtEntry.has_or, PtEntry.has_or, show ptePresent.has ptePresent = true by decide]
        simp
      · rw [PtEntry.has_or, PtEntry.has_or, PtEntry.ofPage_has hlt (by decide)]
        decide
      · rw [PtEntry.frame_or _ (by decide), PtEntry.frame_or _ (by decide), PtEntry.frame_ofPage hlt]
    let s1 : Mmu := ({ s with pmm := pmm1 } : Mmu).zeroPage p
    let s2 := s1.setEntry s.kernelMap i newE
    let s3 := s2.modifyPage p fun q => { q with refCount := 1 }
    have hentry (q j : ℕ) : s3.entry q j =
        if q = s.kernelMap ∧ j = i then newE else if q = p then 0 else s.entry q j := by
      simp [s3, s2, s1]
    have hr : pmm1.Recounted s3.pmm := Recounted.modify pmm1 p fun _ => 1
    have hpk := ha.ne hma
    have hforest : Forest AnyIdx True s3
        (update place p (some (s.kernelMap, [] ++ [i]))) := by
      apply ht.grove.forest.insert ht.root (by simp) hi _ (ht.grove.place_eq_none ha.fresh)
      · rw [hentry, if_pos ⟨rfl, rfl⟩]
        exact hlinks.1
      · rw [hentry, if_pos ⟨rfl, rfl⟩]
        exact hlinks.2
      · intro _ j
        rw [hentry, if_neg fun hc => hpk hc.1.symm, if_pos rfl, PtEntry.zero_has]
      · intro q j hq hqj
        rw [hentry, if_neg hqj, if_neg hq]
      · exact fun hl => hp hl.1
    refine ⟨s3, rfl, _, free1, insert ⟨p, 0⟩ alloc, ht.grove.withTable ha hforest hr, ?_, ?_⟩
    · change update place p _ s.kernelMap = _
      rw [update_of_ne hpk]
      exact ht.root
    · intro b hb
      obtain ⟨hba, hbp⟩ := ht.given_alloc b hb
      refine ⟨.inr hba, fun ho => ?_⟩
      rw [update_of_ne (ha.ne (ho ▸ hba))]
      exact hbp ho
  · rw [he]
    refine ⟨_, rfl, place, free, alloc, ht.grove.recounted ?_, ht.root, ht.given_alloc⟩
    exact ⟨⟨fun _ => rfl, rfl, rfl⟩, rfl, rfl⟩

/-- The kernel's map is a tree, and blocks allocated before stay out of it. -/
theorem vmmInit_hasTree {boot : BootInfo} (hwf : s.pmm.Wf free alloc)
    (htotal : s.pmm.totalPages ≤ 2 ^ 40) (hrun : vmmInit boot s = some s') : HasTree alloc s' := by
  unfold vmmInit pageAlloc at hrun
  rcases pmmAllocPages_spec hwf 0 with ⟨pmm1, free1, p, he, ha⟩ | ⟨he, -⟩
  swap
  · simp [he] at hrun
  rw [he] at hrun
  simp only [bind_eq_bind, bind_some, pure_def] at hrun
  obtain ⟨s1, he1, hrun⟩ := bind_eq_some_iff.mp hrun
  obtain ⟨s2, he2, hrun⟩ := bind_eq_some_iff.mp hrun
  -- the tree begins with the map alone
  let s0 : Mmu := ({ ({ s with pmm := pmm1 } : Mmu).zeroPage p with kernelMap := p } : Mmu).modifyPage
    p fun q => { q with refCount := 1 }
  have hr : pmm1.Recounted s0.pmm := Recounted.modify pmm1 p fun _ => 1
  have hforest : Forest AnyIdx True s0 (update (fun _ => none) p (some (p, []))) := by
    apply (Forest.empty AnyIdx True s).addRoot rfl
    · intro i _
      have hz : s0.entry p i = 0 := by simp [s0]
      rw [hz, PtEntry.zero_has]
    · intro q hq
      funext j
      simp [s0, hq]
  have h0 : HasTree alloc s0 := by
    refine ⟨_, free1, insert ⟨p, 0⟩ alloc, ⟨hforest, ha.wf.recounted hr, ?_, ?_⟩, ?_, ?_⟩
    · rw [hr.totalPages, ha.totalPages]
      exact htotal
    · intro q x hq
      rcases Places.update_some.mp hq with ⟨rfl, -⟩ | ⟨-, hq⟩
      · exact Set.mem_insert _ _
      · cases hq
    · exact update_self ..
    · intro b hb
      refine ⟨.inr hb, fun ho => ?_⟩
      rw [update_of_ne]
      rintro rfl
      exact ha.fresh (ho ▸ hb)
  have h2 := (h0.foldlM (fun s r s' h he => h.mapRegion he) he1).foldlM
    (fun s ph s' h he => h.mapSegment he) he2
  obtain ⟨s3, he3, h3⟩ := forUpTo_invariant (n := 256) (fun _ => HasTree alloc) h2
    fun i hi s h => h.kernelTable (show 256 + i < 512 by omega)
  rw [he3] at hrun
  cases hrun
  exact h3

end Mmu
end Doppio
