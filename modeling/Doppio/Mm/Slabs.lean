import Doppio.Mm.Magazines
import Doppio.Mmu.BuddyRuns

/-! The blocks of the heap: pages of magazines, chunks that objects of one class are cut from, and
large requests. -/
namespace Doppio
open Function Option List Nat
open Buddy

inductive BlockUse where
  | magazines
  | chunk (idx : KmemClass)
  | large
  deriving DecidableEq

theorem kmemClassSizes_pos (k : KmemClass) : 0 < kmemClassSizes k := by
  revert k
  decide

theorem kmemGetIndex_classSize (k : KmemClass) : KmemHeap.kmemGetIndex (kmemClassSizes k) = some k := by
  revert k
  decide +kernel

variable {k : KmemClass}

theorem kmemClassSizes_inj {k' : KmemClass} (h : kmemClassSizes k = kmemClassSizes k') :
    k = k' := by
  have hk := kmemGetIndex_classSize k
  rw [h, kmemGetIndex_classSize k'] at hk
  exact (some.inj hk).symm

theorem le_of_kmemGetIndex {size : ℕ} (h : KmemHeap.kmemGetIndex size = some k) :
    size ≤ kmemClassSizes k := by
  unfold KmemHeap.kmemGetIndex at h
  split_ifs at h with h8
  · cases h
    exact h8
  · have hk := find?_some h
    simpa using hk

theorem exists_kmemGetIndex {size : ℕ} (h : size ≤ kmemMaxDirect) :
    ∃ k, KmemHeap.kmemGetIndex size = some k := by
  have hmax : size ≤ 2048 := h
  unfold KmemHeap.kmemGetIndex
  split_ifs with h8 h2048
  · exact ⟨0, rfl⟩
  · omega
  · rw [← isSome_iff_exists, find?_isSome]
    exact ⟨15, by decide, decide_eq_true hmax⟩

def objectAt (k : KmemClass) (b : Block) (j : ℕ) : ℕ := b.head * pageSize + j * kmemClassSizes k

def perChunk (k : KmemClass) : ℕ := (pageSize <<< kmemClassInitOrders k) / kmemClassSizes k

theorem perChunk_pos (k : KmemClass) : 0 < perChunk k := by
  revert k
  decide

variable {b : Block}

theorem mem_pages_div {x : ℕ} : x / pageSize ∈ b.pages ↔
    b.head * pageSize ≤ x ∧ x < b.head * pageSize + pageSize <<< b.order := by
  rw [Block.mem_pages, le_div_iff_mul_le (by decide), div_lt_iff_lt_mul (by decide),
    add_mul, shiftLeft_eq, mul_comm pageSize]

theorem succ_mul_perChunk_le {j : ℕ} (hj : j < perChunk k) :
    j * kmemClassSizes k + kmemClassSizes k ≤ pageSize <<< kmemClassInitOrders k := by
  calc j * kmemClassSizes k + kmemClassSizes k = (j + 1) * kmemClassSizes k := by ring
    _ ≤ perChunk k * kmemClassSizes k := mul_le_mul_right _ hj
    _ ≤ pageSize <<< kmemClassInitOrders k := div_mul_le_self _ _

theorem objectAt_mem {j i : ℕ} (hb : b.order = kmemClassInitOrders k)
    (hj : j < perChunk k) (hi : i < kmemClassSizes k) :
    (objectAt k b j + i) / pageSize ∈ b.pages := by
  have hend := succ_mul_perChunk_le hj
  rw [mem_pages_div, hb]
  unfold objectAt
  omega

theorem objectAt_head_mem {j : ℕ} (hb : b.order = kmemClassInitOrders k)
    (hj : j < perChunk k) : objectAt k b j / pageSize ∈ b.pages := by
  have hmem := objectAt_mem hb hj (kmemClassSizes_pos k)
  rwa [add_zero] at hmem

theorem objectAt_inj {i j : ℕ} (h : objectAt k b i = objectAt k b j) :
    i = j := by
  exact eq_of_mul_eq_mul_right (kmemClassSizes_pos k) (add_left_cancel h)

/-- The blocks in use, and the objects cut from the chunks, of class `kind`. -/
structure Stocked (s : KmemHeap) (kind : ℕ → Option KmemClass) (use : Block → Option BlockUse)
    (free : ℕ → List ℕ) (alloc : Set Block) : Prop where
  wf : s.pmm.Wf free alloc
  use_alloc : ∀ b, use b ≠ none → b ∈ alloc
  order_eq : ∀ k, (s.depots k).currentOrder = kmemClassInitOrders k
  chunk : ∀ b k, use b = some (.chunk k) →
    b.order = kmemClassInitOrders k ∧ ∀ y ∈ b.pages, s.objSize y = kmemClassSizes k
  large : ∀ b, use b = some .large → s.objSize b.head = 0 ∧ (s.pmm.page b.head).order = b.order
  object : ∀ x k, kind x = some k →
    ∃ b j, use b = some (.chunk k) ∧ j < perChunk k ∧ x = objectAt k b j
  rest : ∀ k, (s.depots k).objsRemaining ≠ 0 → ∃ b j, use b = some (.chunk k) ∧
    j + (s.depots k).objsRemaining = perChunk k ∧ (s.depots k).currentChunk = objectAt k b j ∧
    ∀ i, j ≤ i → i < perChunk k → kind (objectAt k b i) = none
  carved : ∀ x, x ∈ s.carved ↔ kind x ≠ none

namespace Stocked
open Pmm KmemHeap

variable {s s' : KmemHeap} {kind : ℕ → Option KmemClass} {use : Block → Option BlockUse}
  {free : ℕ → List ℕ} {alloc : Set Block} {k : KmemClass} {b c : Block} {x : ℕ}

section
variable (h : Stocked s kind use free alloc)
include h

theorem congr (hpmm : s'.pmm = s.pmm)
    (hsize : s'.objSize = s.objSize) (hcarved : s'.carved = s.carved)
    (hdepot : ∀ k, (s'.depots k).currentOrder = (s.depots k).currentOrder ∧
      (s'.depots k).objsRemaining = (s.depots k).objsRemaining ∧
      (s'.depots k).currentChunk = (s.depots k).currentChunk) :
    Stocked s' kind use free alloc := by
  refine ⟨?_, h.use_alloc, ?_, ?_, ?_, h.object, ?_, ?_⟩
  · rw [hpmm]
    exact h.wf
  · intro k
    rw [(hdepot k).1]
    exact h.order_eq k
  · rw [hsize]
    exact h.chunk
  · rw [hsize, hpmm]
    exact h.large
  · intro k
    rw [(hdepot k).2.1, (hdepot k).2.2]
    exact h.rest k
  · rw [hcarved]
    exact h.carved

theorem withMags (m : ℕ → Magazine) (fm : Option ℕ) :
    Stocked { s with magazine := m, freeMags := fm } kind use free alloc :=
  h.congr rfl rfl rfl fun _ => ⟨rfl, rfl, rfl⟩

theorem eq_of_mem (hb : use b ≠ none) (hc : use c ≠ none)
    (hxb : x ∈ b.pages) (hxc : x ∈ c.pages) : b = c :=
  h.wf.shape.apart.eq_of_mem (.inr (h.use_alloc b hb)) (.inr (h.use_alloc c hc)) hxb hxc

theorem physToPage (hb : use b ≠ none)
    (hx : x / pageSize ∈ b.pages) : s.pmm.physToPage x = some (x / pageSize) := by
  have hfit := h.wf.shape.apart.fits b (.inr (h.use_alloc b hb))
  have hlt := hx.2
  unfold Pmm.physToPage
  rw [if_neg (by omega)]

theorem pageToPhys (hb : b ∈ alloc) :
    Pmm.pageToPhys b.head = b.head * pageSize := by
  have hfit := h.wf.shape.apart.fits b (.inr hb)
  have htotal := h.wf.shape.total_le
  have hpos := Nat.two_pow_pos b.order
  unfold Pmm.pageToPhys pageSize
  apply mod_eq_of_lt
  omega

theorem objSize_of_kind (hx : kind x = some k) :
    s.objSize (x / pageSize) = kmemClassSizes k := by
  obtain ⟨b, j, hb, hj, rfl⟩ := h.object x k hx
  obtain ⟨ho, hsize⟩ := h.chunk b k hb
  exact hsize _ (objectAt_head_mem ho hj)

theorem cutObject (hrem : (s.depots k).objsRemaining ≠ 0) :
    ∃ d fc x, s.cutObject k = some ({ s with
        depots := update s.depots k d, freeCount := fc, carved := x :: s.carved }, some x) ∧
      (s.depots k).SameLists d ∧ kind x = none ∧
      Stocked { s with
        depots := update s.depots k d, freeCount := fc, carved := x :: s.carved }
        (update kind x (some k)) use free alloc := by
  obtain ⟨b, j, hb, hj, hcur, hnone⟩ := h.rest k hrem
  obtain ⟨ho, -⟩ := h.chunk b k hb
  have hjlt : j < perChunk k := by omega
  have hpage := objectAt_head_mem ho hjlt
  have huse : use b ≠ none := by
    rw [hb]
    simp
  let x := objectAt k b j
  let d : Depot := { s.depots k with
    currentChunk := (s.depots k).currentChunk + kmemClassSizes k
    objsRemaining := (s.depots k).objsRemaining - 1 }
  have hd (k' : KmemClass) (hk' : k' ≠ k) : update s.depots k d k' = s.depots k' :=
    update_of_ne hk' ..
  refine ⟨d, update s.freeCount (x / pageSize) (s.freeCount (x / pageSize) - 1), x, ?_,
    ⟨rfl, rfl, rfl, rfl⟩, hnone j le_rfl hjlt, ⟨h.wf, h.use_alloc, ?_, h.chunk, h.large, ?_, ?_, ?_⟩⟩
  · unfold KmemHeap.cutObject
    simp only [hcur]
    have hphys : (s.setDepot k fun d => { d with
        currentChunk := d.currentChunk + kmemClassSizes k
        objsRemaining := d.objsRemaining - 1 }).pmm.physToPage (objectAt k b j) =
        some (objectAt k b j / pageSize) := h.physToPage huse hpage
    rw [hphys]
    rfl
  · intro k'
    by_cases hk' : k' = k
    · subst hk'
      simpa [d] using h.order_eq k'
    · simpa [hd k' hk'] using h.order_eq k'
  · intro y k' hy
    by_cases hyx : y = x
    · subst hyx
      rw [update_self] at hy
      cases hy
      exact ⟨b, j, hb, hjlt, rfl⟩
    · rw [update_of_ne hyx] at hy
      exact h.object y k' hy
  · intro k' hrem'
    by_cases hk' : k' = k
    · subst hk'
      simp only [update_self, d] at hrem' ⊢
      refine ⟨b, j + 1, hb, by omega, ?_, fun i hi hi' => ?_⟩
      · rw [hcur]
        unfold objectAt
        ring
      · rw [update_of_ne fun e => absurd (objectAt_inj e) (by omega)]
        exact hnone i (by omega) hi'
    · simp only [hd k' hk'] at hrem' ⊢
      obtain ⟨b', j', hb', hj', hcur', hnone'⟩ := h.rest k' hrem'
      refine ⟨b', j', hb', hj', hcur', fun i hi hi' => ?_⟩
      rw [update_of_ne]
      · exact hnone' i hi hi'
      · -- chunks of two classes are two blocks
        intro e
        have ho' := (h.chunk b' k' hb').1
        have hbb : b' = b := h.eq_of_mem (by rw [hb']; simp) huse (objectAt_head_mem ho' hi')
          (e ▸ hpage)
        rw [hbb, hb] at hb'
        exact hk' (BlockUse.chunk.inj (some.inj hb')).symm
  · intro y
    rw [mem_cons, h.carved]
    by_cases hyx : y = x
    · simp [hyx]
    · simp [hyx]

theorem pmmAllocPages {o p : ℕ} {pmm : Pmm} {free' : ℕ → List ℕ}
    (he : s.pmm.pmmAllocPages o = some (pmm, some p))
    (ha : Allocated s.pmm free alloc o pmm free' p) :
    Stocked { s with pmm := pmm } kind use free' (insert ⟨p, o⟩ alloc) ∧ use ⟨p, o⟩ = none := by
  have hnone : use ⟨p, o⟩ = none := by
    by_contra hc
    exact ha.fresh (h.use_alloc _ hc)
  refine ⟨⟨ha.wf, fun b hb => .inr (h.use_alloc b hb), h.order_eq, h.chunk, ?_, h.object, h.rest,
    h.carved⟩, hnone⟩
  intro b hb
  have hba : b ∈ alloc := h.use_alloc b (by rw [hb]; simp)
  have hne : b.head ≠ p := by
    intro e
    have heq : b = ⟨p, o⟩ := ha.wf.shape.apart.eq_of_mem (.inr (.inr hba))
      (.inr (Set.mem_insert _ _)) b.head_mem (e ▸ Block.head_mem ⟨p, o⟩)
    exact ha.fresh (heq ▸ hba)
  refine ⟨(h.large b hb).1, ?_⟩
  have hflag := ha.wf.alloc_flag b (.inr hba)
  exact (pmmAllocPages_order he hne hflag).trans (h.large b hb).2

theorem outOfMemory (os : List ℕ) :
    Stocked { s with pmm := { s.pmm with outOfMemory := os } } kind use free alloc :=
  { h with wf := ⟨{ h.wf.shape with }, h.wf.alloc_flag, h.wf.free_flag⟩ }

theorem assign {p o : ℕ} (hb : ⟨p, o⟩ ∈ alloc)
    (hnone : use ⟨p, o⟩ = none) (u : BlockUse) {f : Page → Page} {sizes : ℕ → ℕ}
    (hf : ∀ q, q.isFree = false → (f q).isFree = false)
    (hout : ∀ y, y ∉ (Block.mk p o).pages → sizes y = s.objSize y) (hchunk : ∀ k, u = .chunk k →
      o = kmemClassInitOrders k ∧ ∀ y ∈ (Block.mk p o).pages, sizes y = kmemClassSizes k)
    (hlarge : u = .large → sizes p = 0 ∧ (f (s.pmm.page p)).order = o) :
    Stocked { s with pmm := s.pmm.modify p f, objSize := sizes } kind
      (update use ⟨p, o⟩ (some u)) free alloc := by
  have hold (b : Block) (hu : use b ≠ none) : b ≠ ⟨p, o⟩ := by
    rintro rfl
    exact hu hnone
  have hdisj (b : Block) (hu : use b ≠ none) (y : ℕ) (hy : y ∈ b.pages) :
      y ∉ (Block.mk p o).pages := by
    intro hy'
    exact hold b hu (h.wf.shape.apart.eq_of_mem (.inr (h.use_alloc b hu)) (.inr hb) hy hy')
  have hkeep {b : Block} {v : BlockUse} (hu : use b = some v) :
      update use ⟨p, o⟩ (some u) b = some v := by
    rw [update_of_ne (hold b (by rw [hu]; simp))]
    exact hu
  have hcases (b : Block) (v : BlockUse) (hu : update use ⟨p, o⟩ (some u) b = some v) :
      (b = ⟨p, o⟩ ∧ u = v) ∨ (use b = some v ∧ b ≠ ⟨p, o⟩) := by
    by_cases hbp : b = ⟨p, o⟩
    · subst hbp
      rw [update_self] at hu
      exact .inl ⟨rfl, some.inj hu⟩
    · rw [update_of_ne hbp] at hu
      exact .inr ⟨hu, hbp⟩
  refine ⟨?_, ?_, h.order_eq, ?_, ?_, ?_, ?_, h.carved⟩
  · exact h.wf.modify_head hb (hf _ (h.wf.alloc_flag _ hb))
  · intro b hu
    by_cases hbp : b = ⟨p, o⟩
    · rw [hbp]
      exact hb
    · rw [update_of_ne hbp] at hu
      exact h.use_alloc b hu
  · intro b k hu
    rcases hcases b _ hu with ⟨rfl, hk⟩ | ⟨hu, -⟩
    · exact hchunk k hk
    · obtain ⟨ho, hsize⟩ := h.chunk b k hu
      refine ⟨ho, fun y hy => ?_⟩
      simp only
      rw [hout y (hdisj b (by rw [hu]; simp) y hy)]
      exact hsize y hy
  · intro b hu
    rcases hcases b _ hu with ⟨rfl, hk⟩ | ⟨hu, -⟩
    · simpa using hlarge hk
    · have hnot := hdisj b (by rw [hu]; simp) b.head b.head_mem
      have hne : b.head ≠ p := by
        intro e
        exact hnot (e ▸ Block.head_mem ⟨p, o⟩)
      simp only [modify_page, if_neg hne, hout b.head hnot]
      exact h.large b hu
  · intro x k hx
    obtain ⟨b, j, hu, hj, rfl⟩ := h.object x k hx
    exact ⟨b, j, hkeep hu, hj, rfl⟩
  · intro k hrem
    obtain ⟨b, j, hu, hj, hcur, hfree⟩ := h.rest k hrem
    exact ⟨b, j, hkeep hu, hj, hcur, hfree⟩

theorem kind_eq_none (hb : b ∈ alloc) (hnone : use b = none)
    (hx : x / pageSize ∈ b.pages) : kind x = none := by
  cases hk : kind x with
  | none => rfl
  | some k =>
    obtain ⟨c, j, hc, hj, rfl⟩ := h.object x k hk
    have hca : c ∈ alloc := h.use_alloc c (by rw [hc]; simp)
    have heq : c = b := h.wf.shape.apart.eq_of_mem (.inr hca) (.inr hb)
      (objectAt_head_mem (h.chunk c k hc).1 hj) hx
    simp [heq, hnone] at hc

end

theorem kmemSetupSlabPage_eq (s : KmemHeap) (p size o : ℕ) :
    ∃ sizes fc, s.kmemSetupSlabPage p size o = { s with
        pmm := s.pmm.modify p fun q => { q with order := o, isFree := false }
        objSize := sizes, freeCount := fc } ∧
      (∀ y ∈ (Block.mk p o).pages, sizes y = size) ∧
      ∀ y, y ∉ (Block.mk p o).pages → sizes y = s.objSize y := by
  have hloop (n : ℕ) (t : KmemHeap) : ∃ sizes fc, (range n).foldl (fun (s : KmemHeap) i =>
      { s with
        objSize := update s.objSize (p + i) size
        freeCount := update s.freeCount (p + i) (BitVec.ofNat 32 (pageSize / size)) }) t =
        { t with objSize := sizes, freeCount := fc } ∧
      ∀ y, sizes y = if p ≤ y ∧ y < p + n then size else t.objSize y := by
    induction n with
    | zero => exact ⟨t.objSize, t.freeCount, rfl, fun y => by rw [if_neg (by omega)]⟩
    | succ n ih =>
      obtain ⟨sizes, fc, he, hsize⟩ := ih
      refine ⟨update sizes (p + n) size,
        update fc (p + n) (BitVec.ofNat 32 (pageSize / size)), ?_, fun y => ?_⟩
      · rw [range_succ, foldl_append, he]
        rfl
      · by_cases hy : y = p + n
        · rw [hy, update_self, if_pos (by omega)]
        · rw [update_of_ne hy, hsize]
          split_ifs <;> first | rfl | omega
  obtain ⟨sizes, fc, he, hsize⟩ := hloop (1 <<< o) { s with
    pmm := s.pmm.modify p fun q => { q with order := o, isFree := false }
    objSize := update s.objSize p size }
  have hpow : 1 <<< o = 2 ^ o := by rw [shiftLeft_eq, one_mul]
  refine ⟨sizes, fc, he, fun y hy => ?_, fun y hy => ?_⟩
  · rw [hsize, hpow]
    exact if_pos hy
  · have hnot : ¬ (p ≤ y ∧ y < p + 2 ^ o) := hy
    rw [hsize, hpow, if_neg hnot]
    apply update_of_ne
    rintro rfl
    exact hy (Block.head_mem ⟨y, o⟩)

theorem newChunk (h : Stocked s kind use free alloc) {p o : ℕ} (ho : o = kmemClassInitOrders k)
    (hb : ⟨p, o⟩ ∈ alloc) (hnone : use ⟨p, o⟩ = none) :
    ∃ t, (s.setDepot k fun d => { d with
        currentChunk := Pmm.pageToPhys p
        objsRemaining := (pageSize <<< o) / kmemClassSizes k }).kmemSetupSlabPage p
          (kmemClassSizes k) o = t ∧
      Stocked t kind (update use ⟨p, o⟩ (some (.chunk k))) free alloc ∧
      (t.depots k).objsRemaining ≠ 0 ∧ t.pmm.outOfMemory = s.pmm.outOfMemory ∧
      t.magazine = s.magazine ∧ t.freeMags = s.freeMags ∧ t.magazines = s.magazines ∧
      t.byte = s.byte ∧ t.pmm.totalPages = s.pmm.totalPages ∧
      ∀ k', (s.depots k').SameLists (t.depots k') := by
  let d : Depot := { s.depots k with
    currentChunk := Pmm.pageToPhys p
    objsRemaining := (pageSize <<< o) / kmemClassSizes k }
  obtain ⟨sizes, fc, he, hin, hout⟩ := kmemSetupSlabPage_eq (s.setDepot k fun d => { d with
    currentChunk := Pmm.pageToPhys p
    objsRemaining := (pageSize <<< o) / kmemClassSizes k }) p (kmemClassSizes k) o
  refine ⟨_, rfl, ?_⟩
  rw [he]
  have hchunk (k' : KmemClass) (hk' : BlockUse.chunk k = .chunk k') :
      o = kmemClassInitOrders k' ∧ ∀ y ∈ (Block.mk p o).pages, sizes y = kmemClassSizes k' := by
    obtain rfl := BlockUse.chunk.inj hk'
    exact ⟨ho, hin⟩
  have hass := h.assign (f := fun q => { q with order := o, isFree := false }) hb hnone (.chunk k)
    (fun _ _ => rfl) hout hchunk (nofun)
  have hd (k' : KmemClass) (hk' : k' ≠ k) : update s.depots k d k' = s.depots k' :=
    update_of_ne hk' ..
  refine ⟨{ hass with order_eq := ?_, rest := ?_ }, ?_,
    rfl, rfl, rfl, rfl, rfl, rfl, ?_⟩
  · intro k'
    change (update s.depots k d k').currentOrder = _
    by_cases hk' : k' = k
    · subst hk'
      simpa [d] using h.order_eq k'
    · rw [hd k' hk']
      exact h.order_eq k'
  · intro k' hrem
    change (update s.depots k d k').objsRemaining ≠ 0 at hrem
    change ∃ b j, _ ∧ j + (update s.depots k d k').objsRemaining = _ ∧
      (update s.depots k d k').currentChunk = _ ∧ _
    by_cases hk' : k' = k
    · subst hk'
      rw [update_self] at hrem ⊢
      refine ⟨⟨p, o⟩, 0, update_self .., ?_, ?_, fun i _ hi => ?_⟩
      · subst ho
        exact zero_add _
      · change Pmm.pageToPhys p = _
        rw [h.pageToPhys hb]
        simp [objectAt]
      · exact h.kind_eq_none hb hnone (objectAt_head_mem ho hi)
    · rw [hd k' hk'] at hrem ⊢
      exact hass.rest k' hrem
  · change (update s.depots k d k).objsRemaining ≠ 0
    rw [update_self]
    subst ho
    exact (perChunk_pos k).ne'
  · have hlists : (s.depots k).SameLists d := ⟨rfl, rfl, rfl, rfl⟩
    exact hlists.update

theorem freeLarge (h : Stocked s kind use free alloc) (hu : use b = some .large) :
    ∃ free', Stocked { s with pmm := s.pmm.pmmFreePages b.head b.order } kind
      (update use b none) free' (alloc \ {b}) := by
  have hb : b ∈ alloc := h.use_alloc b (by rw [hu]; simp)
  obtain ⟨free', hf⟩ := pmmFreePages_spec h.wf hb
  have hcases {c : Block} {v : BlockUse} (hc : update use b none c = some v) :
      use c = some v ∧ c ≠ b := by
    by_cases hcb : c = b
    · simp [hcb] at hc
    · rw [update_of_ne hcb] at hc
      exact ⟨hc, hcb⟩
  have hchunk {c : Block} {k : KmemClass} (hc : use c = some (.chunk k)) :
      update use b none c = some (.chunk k) := by
    rw [update_of_ne]
    · exact hc
    · rintro rfl
      simp [hc] at hu
  refine ⟨free', ⟨hf.wf, ?_, h.order_eq, ?_, ?_, ?_, ?_, h.carved⟩⟩
  · intro c hc
    obtain ⟨v, hv⟩ := ne_none_iff_exists'.mp hc
    obtain ⟨hc', hne⟩ := hcases hv
    exact ⟨h.use_alloc c (by rw [hc']; simp), hne⟩
  · exact fun c k hc => h.chunk c k (hcases hc).1
  · intro c hc
    obtain ⟨hc', hne⟩ := hcases hc
    have hca : c ∈ alloc := h.use_alloc c (by rw [hc']; simp)
    refine ⟨(h.large c hc').1, ?_⟩
    exact ((pmmFreePages_ordersKept s.pmm b.head b.order) c.head
      (hf.wf.alloc_flag c ⟨hca, hne⟩)).2.trans (h.large c hc').2
  · intro x k hx
    obtain ⟨c, j, hc, hj, rfl⟩ := h.object x k hx
    exact ⟨c, j, hchunk hc, hj, rfl⟩
  · intro k hrem
    obtain ⟨c, j, hc, hj, hcur, hfree⟩ := h.rest k hrem
    exact ⟨c, j, hchunk hc, hj, hcur, hfree⟩

end Stocked
end Doppio
