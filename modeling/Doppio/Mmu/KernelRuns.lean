import Doppio.Mmu.CowRuns
import Doppio.Mmu.VmmInit

/-! The kernel half of the address spaces: user maps copy the upper entries of the kernel's map when
made, and share the tables below ever after. -/
namespace Doppio
open Buddy Option Set

/-- The user maps, and the blocks handed out for other things than tables. -/
structure KernelMaps where
  mmu : Mmu
  users : Set ℕ
  given : Set Block

inductive KernelCall where
  | createMap
  | destroyMap (map : ℕ)
  | pageAlloc (order : ℕ)
  | map (virt phys : ℕ) (prot : BitVec 64)
  | map4k (virt phys : ℕ) (prot : BitVec 64)
  | unmap (virt : ℕ)
  | protectPage (virt : ℕ) (prot : BitVec 32)

namespace KernelMaps
open Pmm Mmu

section
variable (st : KernelMaps)

/-- The block that `vmm_unmap` on the kernel's map gives back. -/
def Releases (virt : ℕ) (b : Block) : Prop :=
  ∃ phys, st.mmu.unmapTarget st.mmu.kernelMap virt = some (phys, b.order) ∧ st.mmu.Frees phys b.head

/-- One call, on the kernel's map where on a map; an allocation may fail. -/
def step : KernelCall → Option KernelMaps
  | .createMap =>
    match st.mmu.vmmCreateUserMap with
    | some (s, some p) => some { st with mmu := s, users := insert p st.users }
    | some (s, none) => some { st with mmu := s }
    | none => none
  | .destroyMap map =>
    (st.mmu.vmmDestroyMap map).map fun s => { st with mmu := s, users := st.users \ {map} }
  | .pageAlloc order =>
    match st.mmu.pageAlloc order with
    | some (s, some p) => some { st with mmu := s, given := insert ⟨p, order⟩ st.given }
    | some (s, none) => some { st with mmu := s }
    | none => none
  | .map virt phys prot =>
    (st.mmu.mmuMap st.mmu.kernelMap virt phys prot).map fun r => { st with mmu := r.1 }
  | .map4k virt phys prot =>
    (st.mmu.mmuMap4k st.mmu.kernelMap virt phys prot).map fun r => { st with mmu := r.1 }
  | .unmap virt =>
    (st.mmu.vmmUnmap st.mmu.kernelMap virt).map fun s =>
      { st with mmu := s, given := {b ∈ st.given | ¬ st.Releases virt b} }
  | .protectPage virt prot =>
    (st.mmu.mmuProtectPage st.mmu.kernelMap virt prot).map fun s => { st with mmu := s }

def Next (c : KernelCall) (st' : KernelMaps) : Prop := st.step c = some st'

def Upper (virt : ℕ) : Prop := 256 ≤ pml4Idx virt

/-- Only user maps in use are destroyed. -/
def Legal : KernelCall → Prop
  | .destroyMap map => map ∈ st.users
  | _ => True

/-- No call adds or removes an entry of the upper half, and `mmu_unmap` frees blocks that were
handed out. -/
def Stable : KernelCall → Prop
  | .map virt _ _ => Upper virt → (st.mmu.entry st.mmu.kernelMap (pml4Idx virt)).has ptePresent
  | .map4k virt _ _ => Upper virt → (st.mmu.entry st.mmu.kernelMap (pml4Idx virt)).has ptePresent
  | .unmap virt => (Upper virt → st.mmu.unmapTarget st.mmu.kernelMap virt = none ∨
      st.mmu.OtherBelow st.mmu.kernelMap virt) ∧ ∀ b, st.Releases virt b → b ∈ st.given
  | _ => True

/-- The kernel's map is a tree; the user maps are empty below and name the same tables above. -/
structure Sound (place : Places) (free : ℕ → List ℕ) (alloc : Set Block) : Prop where
  grove : Grove AnyIdx True st.mmu place free alloc
  root : place st.mmu.kernelMap = some (st.mmu.kernelMap, [])
  given_alloc : ∀ b ∈ st.given, b ∈ alloc ∧ (b.order = 0 → place b.head = none ∧ b.head ∉ st.users)
  user_alloc : ∀ m ∈ st.users, ⟨m, 0⟩ ∈ alloc ∧ place m = none
  user_lower : ∀ m ∈ st.users, ∀ i < 256, (st.mmu.entry m i).has ptePresent = false
  user_upper : ∀ m ∈ st.users, ∀ i, 256 ≤ i → i < 512 →
    (st.mmu.entry m i).has ptePresent = (st.mmu.entry st.mmu.kernelMap i).has ptePresent ∧
      (st.mmu.entry m i).frame = (st.mmu.entry st.mmu.kernelMap i).frame

end

variable {st st' : KernelMaps} {place place' : Places} {free free' : ℕ → List ℕ}
  {alloc alloc' : Set Block} {virt : ℕ}

section
variable (h : Sound st place free alloc)
include h

theorem Sound.confined {s : Mmu}
    (hok : Upper virt → (st.mmu.entry st.mmu.kernelMap (pml4Idx virt)).has ptePresent)
    (hc : Confined st.mmu place alloc st.mmu.kernelMap virt s place' free' alloc') :
    Sound { st with mmu := s } place' free' alloc' := by
  have huser (m : ℕ) (hm : m ∈ st.users) :
      (⟨m, 0⟩ : Block) ∈ alloc' ∧ place' m = none ∧ s.entry m = st.mmu.entry m := by
    obtain ⟨hma, hmp⟩ := h.user_alloc m hm
    obtain ⟨hma', hm'⟩ := hc.kept ⟨m, 0⟩ hma fun _ => hmp
    exact ⟨hma', hm' rfl⟩
  have htop (i : ℕ) (hi : 256 ≤ i) := hc.top i (by
    by_cases he : i = pml4Idx virt
    · right
      rw [he]
      apply hok
      rw [he] at hi
      exact hi
    · exact .inl he)
  refine ⟨hc.toGrove, ?_, ?_, ?_, ?_, ?_⟩
  · simp only [hc.kernelMap]
    exact hc.root h.root
  · intro b hb
    obtain ⟨hba, hbp⟩ := h.given_alloc b hb
    obtain ⟨hba', hbp'⟩ := hc.kept b hba fun ho => (hbp ho).1
    exact ⟨hba', fun ho => ⟨(hbp' ho).1, (hbp ho).2⟩⟩
  · intro m hm
    exact ⟨(huser m hm).1, (huser m hm).2.1⟩
  · intro m hm i hi
    simp only [(huser m hm).2.2]
    exact h.user_lower m hm i hi
  · intro m hm i hi hi'
    simp only [(huser m hm).2.2, hc.kernelMap]
    rw [(htop i hi).1, (htop i hi).2]
    exact h.user_upper m hm i hi hi'

theorem Sound.unmap {virt : ℕ} (hok : Stable st (.unmap virt)) :
    ∃ st', Next st (.unmap virt) st' ∧ ∃ place' free' alloc', Sound st' place' free' alloc' := by
  obtain ⟨hother, hgiven⟩ := hok
  obtain ⟨s, place', free', alloc', he, hu, -⟩ := vmmUnmap_unmapped (fun π i hi => hi) h.grove h.root
    (ownPath_page (virt / pageSize)) (by
      intro phys o p ht hf
      obtain ⟨hba, hbp⟩ := h.given_alloc ⟨p, o⟩ (hgiven ⟨p, o⟩ ⟨phys, ht, hf⟩)
      exact ⟨hba, fun ho => (hbp ho).1⟩)
  have hplace (q : ℕ) (hq : place q = none) : place' q = none := by
    cases hp : place' q with
    | none => rfl
    | some x =>
      simp [hu.place_some q x hp] at hq
  refine ⟨{ st with mmu := s, given := {b ∈ st.given | ¬ st.Releases virt b} }, ?_, place', free',
    alloc', ⟨hu.toGrove, ?_, ?_, ?_, ?_, ?_⟩⟩
  · unfold Next step
    simp only [he, map_some]
  · simp only [hu.kernelMap]
    exact hu.root _ h.root
  · rintro b ⟨hb, hnr⟩
    obtain ⟨hba, hbp⟩ := h.given_alloc b hb
    refine ⟨hu.alloc_kept b hba (fun ho => (hbp ho).1) ?_, fun ho => ⟨hplace _ (hbp ho).1,
      (hbp ho).2⟩⟩
    rintro phys o p ht hf rfl
    exact hnr ⟨phys, ht, hf⟩
  · intro m hm
    obtain ⟨hma, hmp⟩ := h.user_alloc m hm
    refine ⟨hu.alloc_kept _ hma (fun _ => hmp) ?_, hplace m hmp⟩
    rintro phys o p ht hf hc
    -- what is freed was handed out, and is no user map
    have hb := hgiven ⟨p, o⟩ ⟨phys, ht, hf⟩
    rw [← hc] at hb
    exact ((h.given_alloc _ hb).2 rfl).2 hm
  · intro m hm i hi
    simp only [hu.entry_eq m (h.user_alloc m hm).2]
    exact h.user_lower m hm i hi
  · intro m hm i hi hi'
    have htop : s.entry st.mmu.kernelMap i = st.mmu.entry st.mmu.kernelMap i := by
      apply hu.top_eq
      by_cases hv : i = pml4Idx virt
      · rw [hv] at hi
        exact .inr (hother hi)
      · exact .inl hv
    simp only [hu.entry_eq m (h.user_alloc m hm).2, hu.kernelMap, htop]
    exact h.user_upper m hm i hi hi'

theorem Sound.createMap :
    ∃ st', Next st .createMap st' ∧ ∃ free' alloc', Sound st' place free' alloc' := by
  unfold Next step vmmCreateUserMap Mmu.pageAlloc
  rcases pmmAllocPages_spec h.grove.wf 0 with ⟨pmm1, free1, p, he, ha⟩ | ⟨he, -⟩
  · rw [he]
    have hpn := h.grove.place_eq_none ha.fresh
    have hkp := ha.ne (h.grove.table_alloc _ _ h.root)
    let s1 : Mmu := ({ st.mmu with pmm := pmm1 } : Mmu).zeroPage p
    let s2 : Mmu := { s1 with entry := Function.update s1.entry p fun i =>
      if 256 ≤ i ∧ i < 512 then s1.entry s1.kernelMap i else s1.entry p i }
    have hentry (q : ℕ) (hq : q ≠ p) : s2.entry q = st.mmu.entry q := by
      funext j
      simp [s2, s1, hq]
    have hnew (i : ℕ) : s2.entry p i =
        if 256 ≤ i ∧ i < 512 then st.mmu.entry st.mmu.kernelMap i else 0 := by
      simp [s2, s1, hkp]
    have hg : Grove AnyIdx True s2 place free1 (insert ⟨p, 0⟩ alloc) := by
      refine ⟨h.grove.forest.congr ?_, ha.wf, ?_, fun q x hq => .inr (h.grove.table_alloc q x hq)⟩
      · intro t m π i ht _ _
        rw [hentry t (ha.ne (h.grove.table_alloc t _ ht))]
        exact ⟨rfl, rfl, rfl⟩
      · change pmm1.totalPages ≤ _
        rw [ha.totalPages]
        exact h.grove.total_le
    refine ⟨⟨s2, insert p st.users, st.given⟩, rfl, free1, insert ⟨p, 0⟩ alloc,
      ⟨hg, h.root, ?_, ?_, ?_, ?_⟩⟩
    · intro b hb
      obtain ⟨hba, hbp⟩ := h.given_alloc b hb
      refine ⟨.inr hba, fun ho => ⟨(hbp ho).1, ?_⟩⟩
      rintro (hc | hc)
      · exact ha.ne (ho ▸ hba) hc
      · exact (hbp ho).2 hc
    · rintro m (rfl | hm)
      · exact ⟨mem_insert _ _, hpn⟩
      · exact ⟨.inr (h.user_alloc m hm).1, (h.user_alloc m hm).2⟩
    · rintro m (rfl | hm) i hi
      · rw [hnew, if_neg (by omega), PtEntry.zero_has]
      · rw [hentry m (ha.ne (h.user_alloc m hm).1)]
        exact h.user_lower m hm i hi
    · intro m hm i hi hi'
      change _ = (s2.entry st.mmu.kernelMap i).has ptePresent ∧
        _ = (s2.entry st.mmu.kernelMap i).frame
      rw [hentry _ hkp]
      rcases hm with rfl | hm
      · rw [hnew, if_pos ⟨hi, hi'⟩]
        exact ⟨rfl, rfl⟩
      · rw [hentry m (ha.ne (h.user_alloc m hm).1)]
        exact h.user_upper m hm i hi hi'
  · rw [he]
    refine ⟨_, rfl, free, alloc, h.grove.recounted ?_, h.root, h.given_alloc, h.user_alloc,
      h.user_lower, h.user_upper⟩
    exact ⟨⟨fun _ => rfl, rfl, rfl⟩, rfl, rfl⟩

theorem Sound.pageAlloc (o : ℕ) :
    ∃ st', Next st (.pageAlloc o) st' ∧ ∃ free' alloc', Sound st' place free' alloc' := by
  unfold Next step Mmu.pageAlloc
  dsimp only
  rcases pmmAllocPages_spec h.grove.wf o with ⟨pmm1, free1, p, he, ha⟩ | ⟨he, -⟩
  · rw [he]
    refine ⟨⟨{ st.mmu with pmm := pmm1 }, st.users, insert ⟨p, o⟩ st.given⟩, rfl, free1,
      insert ⟨p, o⟩ alloc, ⟨h.grove.withPmm ha.wf ha.totalPages
        fun q x hq => .inr (h.grove.table_alloc q x hq), h.root, ?_, ?_, h.user_lower,
        h.user_upper⟩⟩
    · rintro b (rfl | hb)
      · refine ⟨mem_insert _ _, ?_⟩
        rintro (rfl : o = 0)
        exact ⟨h.grove.place_eq_none ha.fresh, fun hm => ha.fresh (h.user_alloc p hm).1⟩
      · exact ⟨.inr (h.given_alloc b hb).1, (h.given_alloc b hb).2⟩
    · intro m hm
      exact ⟨.inr (h.user_alloc m hm).1, (h.user_alloc m hm).2⟩
  · rw [he]
    refine ⟨_, rfl, free, alloc, h.grove.recounted ?_, h.root, h.given_alloc, h.user_alloc,
      h.user_lower, h.user_upper⟩
    exact ⟨⟨fun _ => rfl, rfl, rfl⟩, rfl, rfl⟩

theorem Sound.destroyMap {m : ℕ} (hm : m ∈ st.users) :
    ∃ st', Next st (.destroyMap m) st' ∧ ∃ free' alloc', Sound st' place free' alloc' := by
  obtain ⟨hma, hmp⟩ := h.user_alloc m hm
  have hmk : m ≠ st.mmu.kernelMap := by
    rintro rfl
    simp [h.root] at hmp
  have hloop : Loop.forUpTo (fun i s =>
      let pml4e := s.entry m i
      if !pml4e.has ptePresent ∨ pml4e.has pteHuge then some s
      else s.destroyPdpt pml4e.frame) 256 st.mmu = some st.mmu := by
    apply Loop.forUpTo_eq_self
    intro i hi
    simp [h.user_lower m hm i hi]
  obtain ⟨free', hf⟩ := pmmFreePages_spec h.grove.wf hma
  refine ⟨⟨{ st.mmu with pmm := st.mmu.pmm.pmmFreePages m 0 }, st.users \ {m}, st.given⟩, ?_, free',
    alloc \ {⟨m, 0⟩}, ⟨h.grove.withPmm hf.wf hf.keeps.totalPages ?_, h.root, ?_, ?_, ?_, ?_⟩⟩
  · unfold Next step vmmDestroyMap
    dsimp only
    rw [if_neg hmk]
    simp only [bind_eq_bind, hloop, bind_some]
    unfold pageFree
    rw [h.grove.wf.physToPage hma]
    rfl
  · intro q x hq
    refine ⟨h.grove.table_alloc q x hq, ?_⟩
    rintro hc
    simp [show q = m from congrArg Block.head hc, hmp] at hq
  · intro b hb
    obtain ⟨hba, hbp⟩ := h.given_alloc b hb
    refine ⟨⟨hba, ?_⟩, fun ho => ⟨(hbp ho).1, fun hc => (hbp ho).2 hc.1⟩⟩
    rintro rfl
    exact (hbp rfl).2 hm
  · rintro q ⟨hq, hqm⟩
    exact ⟨⟨(h.user_alloc q hq).1, fun hc => hqm (congrArg Block.head hc)⟩, (h.user_alloc q hq).2⟩
  · rintro q ⟨hq, -⟩
    exact h.user_lower q hq
  · rintro q ⟨hq, -⟩
    exact h.user_upper q hq

theorem Sound.step {c : KernelCall} (hl : Legal st c) (hok : Stable st c) :
    ∃ st', Next st c st' ∧ ∃ place' free' alloc', Sound st' place' free' alloc' := by
  cases c with
  | createMap =>
    obtain ⟨st', he, hs⟩ := h.createMap
    exact ⟨st', he, place, hs⟩
  | destroyMap m =>
    obtain ⟨st', he, hs⟩ := h.destroyMap hl
    exact ⟨st', he, place, hs⟩
  | pageAlloc o =>
    obtain ⟨st', he, hs⟩ := h.pageAlloc o
    exact ⟨st', he, place, hs⟩
  | map virt phys prot =>
    unfold Next KernelMaps.step mmuMap
    dsimp only
    split_ifs
    · obtain ⟨s, ok, place', free', alloc', he, hc⟩ :=
        vmmMapHuge_confined h.grove h.root virt phys (mmuToX86Flags prot)
      exact ⟨{ st with mmu := s }, by rw [he]; rfl, place', free', alloc', h.confined hok hc⟩
    · obtain ⟨s, ok, place', free', alloc', he, hc⟩ :=
        vmmMap_confined h.grove h.root virt phys (mmuToX86Flags prot)
      exact ⟨{ st with mmu := s }, by rw [he]; rfl, place', free', alloc', h.confined hok hc⟩
  | map4k virt phys prot =>
    obtain ⟨s, ok, place', free', alloc', he, hc⟩ :=
      vmmMap_confined h.grove h.root virt phys (mmuToX86Flags prot)
    refine ⟨{ st with mmu := s }, ?_, place', free', alloc', h.confined hok hc⟩
    unfold Next KernelMaps.step mmuMap4k
    simp only [he, map_some]
  | unmap virt => exact h.unmap hok
  | protectPage virt prot =>
    unfold Next KernelMaps.step
    by_cases hp : (st.mmu.entry st.mmu.kernelMap (pml4Idx virt)).has ptePresent
    · obtain ⟨s, place', free', alloc', he, hc⟩ :=
        mmuProtectPage_confined h.grove h.root virt prot
      exact ⟨{ st with mmu := s }, by simp only [he, map_some], place', free', alloc',
        h.confined (fun _ => hp) hc⟩
    · rw [Bool.not_eq_true] at hp
      exact ⟨st, by simp only [mmuProtectPage_absent prot hp, map_some], place, free, alloc, h⟩

theorem Sound.translate {m a : ℕ} (hm : m ∈ st.users)
    (ha : Upper a) : st.mmu.vmmGetPhys m a = st.mmu.vmmGetPhys st.mmu.kernelMap a := by
  obtain ⟨hp, hf⟩ := h.user_upper m hm _ ha (pml4Idx_lt a)
  unfold vmmGetPhys
  simp only [hp, hf]

theorem Sound.descend_alloc {m t : ℕ} {π : List ℕ}
    (hm : m = st.mmu.kernelMap ∨ m ∈ st.users) (hπ : ∀ i ∈ π, i < 512) (hlen : π.length ≤ 3)
    (hd : st.mmu.descend m π = some t) : ⟨t, 0⟩ ∈ alloc := by
  have hkernel (ρ : List ℕ) (hρ : ∀ i ∈ ρ, i < 512) (hlen : ρ.length ≤ 3)
      (hd : st.mmu.descend st.mmu.kernelMap ρ = some t) : ⟨t, 0⟩ ∈ alloc :=
    h.grove.table_alloc t _ (h.grove.forest.place_of_descend h.root (ownPath_anyIdx hρ [])
      (by simpa using hlen) hd)
  rcases hm with rfl | hm
  · exact hkernel π hπ hlen hd
  cases π with
  | nil =>
    cases hd
    exact (h.user_alloc m hm).1
  | cons i is =>
    -- the first entry is present, so it is one of the upper half, and the kernel's map has it too
    have hi := hπ i (by simp)
    unfold descend at hd
    split_ifs at hd with hl
    have hupper : 256 ≤ i := by
      by_contra hlt
      have := h.user_lower m hm i (by omega)
      simp [hl.1] at this
    obtain ⟨hp, hf⟩ := h.user_upper m hm i hupper hi
    rw [hf] at hd
    rw [hp] at hl
    obtain ⟨hnh, -⟩ := (h.grove.forest.below _ _ [] i h.root (by simp) hi hl.1).resolve_right
      (by simp)
    apply hkernel (i :: is) hπ hlen
    unfold descend
    rw [if_pos ⟨hl.1, hnh⟩]
    exact hd

end

/-- After `vmm_init`, while calls bring no entry of the upper half in or take one away and
`mmu_unmap` frees blocks handed out: every user map translates the kernel half as the kernel's map
does, no table of a map in use is free, and the calls return. -/
theorem reaches_kernel_half {boot : BootInfo} {s₀ s₁ : Mmu} (hwf : s₀.pmm.Wf free alloc)
    (htotal : s₀.pmm.totalPages ≤ 2 ^ 40) (hinit : vmmInit boot s₀ = some s₁)
    (hr : Run.Reaches Next (fun s c => Legal s c ∧ Stable s c) ⟨s₁, ∅, alloc⟩ st') :
    (∀ m ∈ st'.users, ∀ a, Upper a →
      st'.mmu.vmmGetPhys m a = st'.mmu.vmmGetPhys st'.mmu.kernelMap a) ∧
    (∀ m, m = st'.mmu.kernelMap ∨ m ∈ st'.users → ∀ π t, (∀ i ∈ π, i < 512) → π.length ≤ 3 →
      st'.mmu.descend m π = some t → ¬ st'.mmu.pmm.OnFreeList t) ∧
    ∀ c, Legal st' c → Stable st' c → ∃ st'', Next st' c st'' := by
  have hinv : ∃ place free alloc, Sound st' place free alloc := by
    apply hr.invariant
    · rintro s c s' ⟨place, free, alloc, hs⟩ ⟨hl, hok⟩ hstep
      obtain ⟨s'', he, hs'⟩ := hs.step hl hok
      obtain rfl := some.inj (Eq.trans (Eq.symm hstep) he)
      exact hs'
    · obtain ⟨place, free', alloc', ht⟩ := vmmInit_hasTree hwf htotal hinit
      refine ⟨place, free', alloc', ht.grove, ht.root, ?_, ?_, ?_, ?_⟩
      · intro b hb
        exact ⟨(ht.given_alloc b hb).1, fun ho => ⟨(ht.given_alloc b hb).2 ho, fun hc => hc⟩⟩
      · exact fun m hm => absurd hm (notMem_empty m)
      · exact fun m hm => absurd hm (notMem_empty m)
      · exact fun m hm => absurd hm (notMem_empty m)
  obtain ⟨place, free', alloc', hs⟩ := hinv
  refine ⟨fun m hm a ha => hs.translate hm ha, ?_, ?_⟩
  · intro m hm π t hπ hlen hd hfree
    rw [hs.grove.wf.onFreeList_iff] at hfree
    exact hs.grove.wf.not_mem_of_free hfree (hs.descend_alloc hm hπ hlen hd)
      (Block.head_mem ⟨t, 0⟩)
  · intro c hl hok
    obtain ⟨st'', he, -⟩ := hs.step hl hok
    exact ⟨st'', he⟩

theorem exists_wf_of_allocs {os : List ℕ} {s s' : Pmm} (h : ∃ free alloc, s.Wf free alloc)
    (hrun : os.foldlM (fun (s : Pmm) o => (s.pmmAllocPages o).map Prod.fst) s = some s') :
    (∃ free alloc, s'.Wf free alloc) ∧ s'.totalPages = s.totalPages := by
  induction os generalizing s with
  | nil =>
    cases hrun
    exact ⟨h, rfl⟩
  | cons o os ih =>
    obtain ⟨s1, he, hrun⟩ := bind_eq_some_iff.mp hrun
    obtain ⟨free, alloc, hwf⟩ := h
    have h1 : (∃ free alloc, s1.Wf free alloc) ∧ s1.totalPages = s.totalPages := by
      rcases pmmAllocPages_spec hwf o with ⟨pmm, free', p, he', ha⟩ | ⟨he', -⟩
      · simp only [he', map_some, some.injEq] at he
        rw [← he]
        exact ⟨⟨free', _, ha.wf⟩, ha.totalPages⟩
      · simp only [he', map_some, some.injEq] at he
        rw [← he]
        exact ⟨⟨free, alloc, hwf.recounted ⟨fun _ => rfl, rfl, rfl⟩⟩, rfl⟩
    obtain ⟨h2, ht⟩ := ih h1.1 hrun
    exact ⟨h2, ht.trans h1.2⟩

def eightPages : Pmm :=
  ([9, 8, 7, 6, 5, 4, 3].foldlM (fun (s : Pmm) o => (s.pmmAllocPages o).map Prod.fst)
    (Spaces.pool 1)).getD (Spaces.pool 1)

theorem eightPages_wf : (∃ free alloc, eightPages.Wf free alloc) ∧
    eightPages.totalPages ≤ 2 ^ 40 := by
  have hsome : ([9, 8, 7, 6, 5, 4, 3].foldlM (fun (s : Pmm) o => (s.pmmAllocPages o).map Prod.fst)
      (Spaces.pool 1)).isSome := by decide +kernel
  obtain ⟨s, hs⟩ := isSome_iff_exists.mp hsome
  obtain ⟨hwf, ht⟩ := exists_wf_of_allocs ⟨_, _, Spaces.pool_wf (N := 1) (by decide)⟩ hs
  unfold eightPages
  rw [hs]
  refine ⟨hwf, ?_⟩
  simp only [getD_some, ht]
  decide

/-- One page of device memory in the direct map, at the start of the upper half. -/
def oneRegion : BootInfo := ⟨[⟨0x10000000, 0x1000⟩], 0xffff800000000000, 0, 0, []⟩

def devicePage : ℕ := 0xffff800010000000

/-- A 2 MiB page replaces the page, a user map is made, and the 2 MiB page goes: the table that the
user map still names is free. -/
theorem unmap_frees_shared_table :
    ∃ (s₁ : Mmu) (free : ℕ → List ℕ) (alloc : Set Block) (st' : KernelMaps) (m t : ℕ),
      eightPages.Wf free alloc ∧ eightPages.totalPages ≤ 2 ^ 40 ∧
      vmmInit oneRegion ⟨eightPages, fun _ _ => 0, fun _ => 0, 0⟩ = some s₁ ∧
      Run.Reaches Next Legal ⟨s₁, ∅, alloc⟩ st' ∧ m ∈ st'.users ∧
      st'.mmu.descend m [256] = some t ∧ st'.mmu.pmm.OnFreeList t := by
  have hrun : ((vmmInit oneRegion ⟨eightPages, fun _ _ => 0, fun _ => 0, 0⟩).bind fun s₁ =>
      (s₁.mmuMap s₁.kernelMap devicePage (2 ^ 30) 0).bind fun r =>
      (r.1.vmmCreateUserMap).bind fun c =>
      (c.1.vmmUnmap c.1.kernelMap devicePage).map fun s =>
        [c.2, s.descend 2043 [256], s.pmm.freeLists 0, (s.pmm.page 2041).next,
          (s.pmm.page 2041).prev, (s.pmm.page 2042).next, (s.pmm.page 2042).prev]) =
      some [some 2043, some 2041, some 2041, some 2042, none, none, some 2041] := by
    decide +kernel
  obtain ⟨s₁, hinit, hrun⟩ := bind_eq_some_iff.mp hrun
  obtain ⟨⟨s2, ok⟩, hmap, hrun⟩ := bind_eq_some_iff.mp hrun
  obtain ⟨⟨s3, m⟩, hcreate, hrun⟩ := bind_eq_some_iff.mp hrun
  obtain ⟨s4, hunmap, hread⟩ := map_eq_some_iff.mp hrun
  simp only [List.cons.injEq, and_true] at hread
  obtain ⟨hm, hd, hlist, hn1, hp1, hn2, hp2⟩ := hread
  subst hm
  obtain ⟨⟨free, alloc, hwf⟩, htotal⟩ := eightPages_wf
  have h1 : Next ⟨s₁, ∅, alloc⟩ (.map devicePage (2 ^ 30) 0) ⟨s2, ∅, alloc⟩ := by
    simp only [Next, step, hmap, map_some]
  have h2 : Next ⟨s2, ∅, alloc⟩ .createMap ⟨s3, insert 2043 ∅, alloc⟩ := by
    simp only [Next, step, hcreate]
  have h3 : ∃ given, Next ⟨s3, insert 2043 ∅, alloc⟩ (.unmap devicePage)
      ⟨s4, insert 2043 ∅, given⟩ := by
    simp only [Next, step, hunmap, map_some]
    exact ⟨_, rfl⟩
  obtain ⟨given, h3⟩ := h3
  refine ⟨s₁, free, alloc, ⟨s4, insert 2043 ∅, given⟩, 2043, 2041, hwf, htotal, hinit, ?_,
    mem_insert _ _, hd, ?_⟩
  · exact ((Run.Reaches.single _ trivial h1).trans (Run.Reaches.single _ trivial h2)).trans
      (Run.Reaches.single (.unmap devicePage) trivial h3)
  · refine ⟨0, by decide, [2041, 2042], ?_, 2041, by simp, Block.head_mem ⟨2041, 0⟩⟩
    simp [hlist, hn1, hp1, hn2, hp2, Linked]

theorem reaches_kernel_half_onePage :
    ∃ (s₁ : Mmu) (alloc : Set Block) (st' : KernelMaps),
      vmmInit oneRegion ⟨eightPages, fun _ _ => 0, fun _ => 0, 0⟩ = some s₁ ∧
      Run.Reaches Next (fun s c => Legal s c ∧ Stable s c) ⟨s₁, ∅, alloc⟩ st' ∧
      2043 ∈ st'.users ∧ st'.mmu.vmmGetPhys st'.mmu.kernelMap devicePage = 2 ^ 30 ∧
      st'.mmu.vmmGetPhys 2043 devicePage = 2 ^ 30 := by
  have hrun : ((vmmInit oneRegion ⟨eightPages, fun _ _ => 0, fun _ => 0, 0⟩).bind fun s₁ =>
      (s₁.mmuMap s₁.kernelMap devicePage (2 ^ 30) 0).bind fun r =>
      (r.1.vmmCreateUserMap).map fun c =>
        (c.2, c.1.vmmGetPhys c.1.kernelMap devicePage,
          (s₁.entry s₁.kernelMap (pml4Idx devicePage)).has ptePresent)) =
      some (some 2043, 2 ^ 30, true) := by
    decide +kernel
  obtain ⟨s₁, hinit, hrun⟩ := bind_eq_some_iff.mp hrun
  obtain ⟨⟨s2, ok⟩, hmap, hrun⟩ := bind_eq_some_iff.mp hrun
  obtain ⟨⟨s3, m⟩, hcreate, hread⟩ := map_eq_some_iff.mp hrun
  simp only [Prod.mk.injEq] at hread
  obtain ⟨hm, hphys, hpresent⟩ := hread
  subst hm
  obtain ⟨⟨free, alloc, hwf⟩, htotal⟩ := eightPages_wf
  have h1 : Next ⟨s₁, ∅, alloc⟩ (.map devicePage (2 ^ 30) 0) ⟨s2, ∅, alloc⟩ := by
    simp only [Next, step, hmap, map_some]
  have h2 : Next ⟨s2, ∅, alloc⟩ .createMap ⟨s3, insert 2043 ∅, alloc⟩ := by
    simp only [Next, step, hcreate]
  have hr : Run.Reaches Next (fun s c => Legal s c ∧ Stable s c) ⟨s₁, ∅, alloc⟩
      ⟨s3, insert 2043 ∅, alloc⟩ :=
    (Run.Reaches.single (.map devicePage (2 ^ 30) 0) ⟨trivial, fun _ => hpresent⟩ h1).trans
      (Run.Reaches.single .createMap ⟨trivial, trivial⟩ h2)
  refine ⟨s₁, alloc, _, hinit, hr, mem_insert _ _, hphys, ?_⟩
  have hshared := (reaches_kernel_half hwf htotal hinit hr).1 2043 (mem_insert _ _) devicePage
    (show 256 ≤ pml4Idx devicePage by decide)
  rw [hshared]
  exact hphys

end KernelMaps
end Doppio
