import Doppio.Library.Naming
import Doppio.Mmu.BuddyRuns
import Doppio.Mmu.Translate

/-! The pages behind the address spaces: every mapped frame is allocated and its `ref_count` is the
number of its entries, next to the pages of the tables. -/
namespace Doppio
open Function
open Buddy Naming BitVec

/-- The user mappings of all address spaces: the entry for a page of a map. -/
abbrev Mappings := ℕ × ℕ → Option PtEntry

noncomputable def refs (A : Mappings) (f : ℕ) : ℕ := count PtEntry.frame A f

/-- Two entries for a frame, without `X86_PTE_SHARED`: neither is writable. -/
def CowSafe (A : Mappings) : Prop :=
  ∀ k k' e e', k ≠ k' → A k = some e → A k' = some e' → e.frame = e'.frame →
    e.has pteShared = e'.has pteShared ∧ (e.has pteShared = false → e.has pteWritable = false)

theorem CowSafe.update {A : Mappings} {k : ℕ × ℕ} {e : PtEntry} (h : CowSafe A)
    (hk : ∀ k' g, k' ≠ k → A k' = some g → g.frame = e.frame → g.has pteShared = e.has pteShared ∧
      (e.has pteShared = false → g.has pteWritable = false ∧ e.has pteWritable = false)) :
    CowSafe (update A k (some e)) := by
  intro k1 k2 e1 e2 hne h1 h2 hf
  by_cases hk1 : k1 = k
  · have hk2 : k2 ≠ k := fun hc => hne (hk1.trans hc.symm)
    rw [hk1, update_self] at h1
    rw [update_of_ne hk2] at h2
    cases h1
    obtain ⟨hs, hw⟩ := hk k2 e2 hk2 h2 hf.symm
    exact ⟨hs.symm, fun h0 => (hw h0).2⟩
  · rw [update_of_ne hk1] at h1
    by_cases hk2 : k2 = k
    · rw [hk2, update_self] at h2
      cases h2
      obtain ⟨hs, hw⟩ := hk k1 e1 hk1 h1 hf
      exact ⟨hs, fun h0 => (hw (hs ▸ h0)).1⟩
    · rw [update_of_ne hk2] at h2
      exact h k1 k2 e1 e2 hne h1 h2 hf

theorem CowSafe.erase {A : Mappings} (h : CowSafe A) (k : ℕ × ℕ) :
    CowSafe (Function.update A k none) := by
  have hold (k' : ℕ × ℕ) (e' : PtEntry) (h' : Function.update A k none k' = some e') :
      A k' = some e' := by
    by_cases hk : k' = k
    · simp [hk] at h'
    · rwa [Function.update_of_ne hk] at h'
  intro k1 k2 e1 e2 hne h1 h2 hf
  exact h k1 k2 e1 e2 hne (hold k1 e1 h1) (hold k2 e2 h2) hf

namespace Pmm

def freePages (free : ℕ → List ℕ) : Set ℕ := cover (freeBlocks free)

variable {free : ℕ → List ℕ}

theorem freePages_eq_empty (h : ∀ c < maxOrder, free c = []) :
    freePages free = ∅ := by
  rw [Set.eq_empty_iff_forall_notMem]
  rintro x ⟨b, hb, -⟩
  rw [mem_freeBlocks] at hb
  rw [h _ hb.1] at hb
  cases hb.2

variable {alloc : Set Block} {s : Pmm}

section
variable (h : s.Wf free alloc)
include h

theorem Wf.finite_freePages : (freePages free).Finite := by
  apply (Set.finite_lt_nat s.totalPages).subset
  rintro x ⟨b, hb, hx⟩
  have := h.shape.apart.fits b (mem_blocks.mpr (.inl hb))
  rw [Block.mem_pages] at hx
  change x < s.totalPages
  omega

theorem Wf.not_mem_of_free {x : ℕ} {b : Block}
    (hx : x ∈ freePages free) (hb : b ∈ alloc) : x ∉ b.pages := by
  intro hxb
  obtain ⟨c, hc, hxc⟩ := hx
  have he := h.shape.apart.eq_of_mem (mem_blocks.mpr (.inl hc)) (.inr hb) hxc hxb
  rw [mem_freeBlocks, he] at hc
  exact h.shape.not_free b hb hc.2

theorem freePages_alloc {s' : Pmm} {free' : ℕ → List ℕ} {p : ℕ}
    (ha : Allocated s free alloc 0 s' free' p) :
    freePages free' ⊆ freePages free ∧ (freePages free).ncard ≤ (freePages free').ncard + 1 := by
  have hsub' : freePages free' ⊆ freePages free := by
    intro x hx
    have hxc : x ∈ cover (blocks free' (insert ⟨p, 0⟩ alloc)) := by
      obtain ⟨b, hb, hxb⟩ := hx
      exact ⟨b, mem_blocks.mpr (.inl hb), hxb⟩
    rw [ha.cover_eq] at hxc
    obtain ⟨b, hb, hxb⟩ := hxc
    rcases mem_blocks.mp hb with hb | hb
    · exact ⟨b, hb, hxb⟩
    · exact absurd hxb (ha.wf.not_mem_of_free hx (.inr hb))
  refine ⟨hsub', ?_⟩
  have hsub : freePages free ⊆ insert p (freePages free') := by
    intro x hx
    have hxc : x ∈ cover (blocks free alloc) := by
      obtain ⟨b, hb, hxb⟩ := hx
      exact ⟨b, mem_blocks.mpr (.inl hb), hxb⟩
    rw [← ha.cover_eq] at hxc
    obtain ⟨b, hb, hxb⟩ := hxc
    rcases mem_blocks.mp hb with hb | rfl | hb
    · exact .inr ⟨b, hb, hxb⟩
    · left
      rw [Block.mem_pages] at hxb
      simp only [pow_zero] at hxb
      omega
    · exact absurd hxb (h.not_mem_of_free hx hb)
  exact (Set.ncard_le_ncard hsub (ha.wf.finite_freePages.insert p)).trans
    (Set.ncard_insert_le _ _)

theorem Wf.modify {p : ℕ} {f : Page → Page}
    (hp : ⟨p, 0⟩ ∈ alloc) (hf : ∀ q, (f q).isFree = q.isFree) :
    (s.modify p f).Wf free alloc := by
  have hfree (x : ℕ) : ((s.modify p f).page x).isFree = (s.page x).isFree := by
    rw [modify_page]
    split_ifs with hx
    · rw [hf, hx]
    · rfl
  constructor
  · apply h.shape.modify
    intro o ho
    exact h.shape.not_mem_free hp (Block.head_mem ⟨p, 0⟩) ho
  · intro b hb
    rw [hfree]
    exact h.alloc_flag b hb
  · intro x hx
    rw [hfree] at hx
    exact h.free_flag x hx

end

/-- The allocator holds the tables `keep` and the frames of `A`, and counts the entries of each
frame modulo the width of `ref_count`. -/
structure Held (s : Pmm) (free : ℕ → List ℕ) (alloc : Set Block) (pages keep : Set ℕ)
    (A : Mappings) : Prop where
  wf : s.Wf free alloc
  cover_eq : cover (blocks free alloc) = pages
  total_le : s.totalPages ≤ 2 ^ 40
  keep_alloc : ∀ p ∈ keep, ⟨p, 0⟩ ∈ alloc
  keep_ne : ∀ p ∈ keep, ∀ k e, A k = some e → e.frame ≠ p
  finite : {k | A k ≠ none}.Finite
  named_alloc : ∀ k e, A k = some e → ⟨e.frame, 0⟩ ∈ alloc
  refCount : ∀ k e, A k = some e → (s.page e.frame).refCount = BitVec.ofNat 32 (refs A e.frame)

variable {s : Pmm} {free : ℕ → List ℕ} {alloc : Set Block} {pages keep : Set ℕ}
  {A : Mappings}
  {p f : ℕ} {k : ℕ × ℕ} {e e' : PtEntry}

section
variable (h : s.Held free alloc pages keep A)
include h

theorem Held.lt_total (hp : ⟨p, 0⟩ ∈ alloc) : p < s.totalPages := by
  have := h.wf.shape.apart.fits ⟨p, 0⟩ (.inr hp)
  simp only [pow_zero] at this
  omega

theorem Held.physToPage (hp : ⟨p, 0⟩ ∈ alloc) :
    s.physToPage (p * pageSize) = some p := by
  have hlt := h.lt_total hp
  unfold Pmm.physToPage pageSize
  rw [Nat.mul_div_cancel p (by decide), if_neg (by omega)]

theorem Held.refs_pos (hk : A k = some e) : 0 < refs A e.frame :=
  count_pos h.finite hk rfl

end

theorem Held.refs_eq_zero (hf : ∀ k e, A k = some e → e.frame ≠ f) : refs A f = 0 := by
  by_contra hne
  obtain ⟨k, e, hk, he⟩ := exists_of_count_pos (Nat.pos_of_ne_zero hne)
  exact hf k e hk he

section
variable (h : s.Held free alloc pages keep A)
include h

theorem Held.mono {keep' : Set ℕ} (hsub : keep' ⊆ keep) :
    s.Held free alloc pages keep' A :=
  { h with
      keep_alloc := fun p hp => h.keep_alloc p (hsub hp)
      keep_ne := fun p hp => h.keep_ne p (hsub hp) }

theorem Held.insert_keep (hp : ⟨p, 0⟩ ∈ alloc)
    (hne : ∀ k e, A k = some e → e.frame ≠ p) : s.Held free alloc pages (insert p keep) A := by
  refine { h with keep_alloc := ?_, keep_ne := ?_ }
  · rintro q (rfl | hq)
    · exact hp
    · exact h.keep_alloc q hq
  · rintro q (rfl | hq)
    · exact hne
    · exact h.keep_ne q hq

theorem Held.modify (g : Page → Page) (hp : ⟨p, 0⟩ ∈ alloc)
    (hne : ∀ k e, A k = some e → e.frame ≠ p) (hg : ∀ q, (g q).isFree = q.isFree) :
    (s.modify p g).Held free alloc pages keep A := by
  refine { h with wf := h.wf.modify hp hg, refCount := ?_ }
  intro k e hk
  rw [modify_page, if_neg (hne k e hk)]
  exact h.refCount k e hk

theorem Held.pmmAllocPages :
    (∃ s' free' p, s.pmmAllocPages 0 = some (s', some p) ∧
      s'.Held free' (insert ⟨p, 0⟩ alloc) pages keep A ∧ ⟨p, 0⟩ ∉ alloc ∧ (s'.page p).refCount = 0 ∧
      (∀ x, x ≠ p → (s'.page x).refCount = (s.page x).refCount) ∧ freePages free' ⊆ freePages free ∧
      (freePages free).ncard ≤ (freePages free').ncard + 1) ∨
    (∃ s', s.pmmAllocPages 0 = some (s', none) ∧ s'.Held free alloc pages keep A ∧
      s'.page = s.page ∧ freePages free = ∅) := by
  rcases pmmAllocPages_spec h.wf 0 with ⟨s', free', p, he, ha⟩ | ⟨he, hnone⟩
  · left
    refine ⟨s', free', p, he, ?_, ha.fresh, ha.refCount_self, ha.refCount, freePages_alloc h.wf ha⟩
    refine ⟨ha.wf, ha.cover_eq.trans h.cover_eq, ?_, fun q hq => .inr (h.keep_alloc q hq), h.keep_ne, h.finite,
      fun k e hk => .inr (h.named_alloc k e hk), ?_⟩
    · rw [ha.totalPages]
      exact h.total_le
    · intro k e hk
      rw [ha.refCount, h.refCount k e hk]
      intro hc
      exact ha.fresh (hc ▸ h.named_alloc k e hk)
  · right
    refine ⟨_, he, ?_, rfl, freePages_eq_empty fun c hc => hnone c (Nat.zero_le _) hc⟩
    have hs := h.wf.shape
    exact { h with wf := ⟨{ hs with }, h.wf.alloc_flag, h.wf.free_flag⟩ }

theorem Held.pmmFreePages (hp : ⟨p, 0⟩ ∈ alloc) (hne : ∀ k e, A k = some e → e.frame ≠ p) :
    ∃ free', (s.pmmFreePages p 0).Held free' (alloc \ {⟨p, 0⟩}) pages (keep \ {p}) A := by
  obtain ⟨free', hf⟩ := pmmFreePages_spec h.wf hp
  refine ⟨free', hf.wf, hf.cover_eq.trans h.cover_eq, ?_, ?_, ?_, h.finite, ?_, ?_⟩
  · rw [hf.keeps.totalPages]
    exact h.total_le
  · rintro q ⟨hq, hqp⟩
    refine ⟨h.keep_alloc q hq, fun hc => hqp ?_⟩
    exact congrArg Block.head hc
  · rintro q ⟨hq, -⟩
    exact h.keep_ne q hq
  · intro k e hk
    refine ⟨h.named_alloc k e hk, fun hc => hne k e hk ?_⟩
    exact congrArg Block.head hc
  · intro k e hk
    rw [hf.keeps.refCount]
    exact h.refCount k e hk

theorem Held.name (hk : A k = none) (he : ⟨e.frame, 0⟩ ∈ alloc) (hkeep : e.frame ∉ keep)
    (hcount : (s.page e.frame).refCount = BitVec.ofNat 32 (refs A e.frame)) :
    (s.modify e.frame fun q => { q with refCount := q.refCount + 1 }).Held free alloc pages keep
      (update A k (some e)) := by
  have hcases (k' : ℕ × ℕ) (e' : PtEntry) (h' : update A k (some e) k' = some e') :
      e' = e ∨ A k' = some e' := by
    by_cases hkk : k' = k
    · rw [hkk, update_self] at h'
      exact .inl (Option.some.inj h').symm
    · rw [update_of_ne hkk] at h'
      exact .inr h'
  refine ⟨h.wf.modify he fun q => rfl, h.cover_eq, h.total_le, h.keep_alloc, ?_, finite_update h.finite _, ?_,
    ?_⟩
  · intro p hp k' e' h'
    rcases hcases k' e' h' with rfl | h'
    · exact fun hc => hkeep (hc ▸ hp)
    · exact h.keep_ne p hp k' e' h'
  · intro k' e' h'
    rcases hcases k' e' h' with rfl | h'
    · exact he
    · exact h.named_alloc k' e' h'
  · intro k' e' h'
    have hrefs : refs (update A k (some e)) e'.frame =
        refs A e'.frame + if e.frame = e'.frame then 1 else 0 := count_insert h.finite hk e _
    have hold : (s.page e'.frame).refCount = BitVec.ofNat 32 (refs A e'.frame) := by
      rcases hcases k' e' h' with rfl | h'
      · exact hcount
      · exact h.refCount k' e' h'
    rw [hrefs, modify_page]
    by_cases hf : e'.frame = e.frame
    · rw [ofNat_add]
      rw [hf] at hold
      simp only [hold, hf]
      rfl
    · rw [if_neg hf, if_neg (Ne.symm hf)]
      exact hold

theorem Held.unname (hk : A k = some e) :
    (s.modify e.frame fun q => { q with refCount := q.refCount - 1 }).Held free alloc pages keep
      (update A k none) := by
  have hcases (k' : ℕ × ℕ) (e' : PtEntry) (h' : update A k none k' = some e') :
      A k' = some e' := by
    by_cases hkk : k' = k
    · simp [hkk] at h'
    · rwa [update_of_ne hkk] at h'
  refine ⟨h.wf.modify (h.named_alloc k e hk) fun q => rfl, h.cover_eq, h.total_le, h.keep_alloc, ?_,
    finite_update h.finite _, ?_, ?_⟩
  · intro p hp k' e' h'
    exact h.keep_ne p hp k' e' (hcases k' e' h')
  · intro k' e' h'
    exact h.named_alloc k' e' (hcases k' e' h')
  · intro k' e' h'
    have hrefs : refs (update A k none) e'.frame + (if e.frame = e'.frame then 1 else 0) =
        refs A e'.frame := count_erase h.finite hk _
    have hold := h.refCount k' e' (hcases k' e' h')
    rw [modify_page]
    by_cases hf : e'.frame = e.frame
    · rw [if_pos hf]
      rw [if_pos hf.symm] at hrefs
      rw [← hrefs, ofNat_add, hf] at hold
      rw [hf, hold]
      exact BitVec.add_sub_cancel _ _
    · rw [if_neg hf]
      rw [if_neg (Ne.symm hf), add_zero] at hrefs
      rw [hrefs]
      exact hold

theorem Held.retag (hk : A k = some e)
    (he : e'.frame = e.frame) : s.Held free alloc pages keep (update A k (some e')) := by
  have hcases (k' : ℕ × ℕ) (g : PtEntry) (h' : update A k (some e') k' = some g) :
      ∃ k'' g', A k'' = some g' ∧ g'.frame = g.frame := by
    by_cases hkk : k' = k
    · rw [hkk, update_self] at h'
      cases h'
      exact ⟨k, e, hk, he.symm⟩
    · rw [update_of_ne hkk] at h'
      exact ⟨k', g, h', rfl⟩
  refine ⟨h.wf, h.cover_eq, h.total_le, h.keep_alloc, ?_, finite_update h.finite _, ?_, ?_⟩
  · intro p hp k' g h'
    obtain ⟨k'', g', hg, hf⟩ := hcases k' g h'
    rw [← hf]
    exact h.keep_ne p hp k'' g' hg
  · intro k' g h'
    obtain ⟨k'', g', hg, hf⟩ := hcases k' g h'
    rw [← hf]
    exact h.named_alloc k'' g' hg
  · intro k' g h'
    obtain ⟨k'', g', hg, hf⟩ := hcases k' g h'
    have hrefs : refs (update A k (some e')) g.frame = refs A g.frame :=
      count_replace hk he _
    rw [hrefs, ← hf]
    exact h.refCount k'' g' hg

end

end Pmm

namespace Mmu
open Pmm

variable {s : Mmu} {free : ℕ → List ℕ} {alloc : Set Block} {pages keep : Set ℕ}
  {A : Mappings}
  {k : ℕ × ℕ} {e : PtEntry}

theorem decRef_eq (h : s.pmm.Held free alloc pages keep A) (hk : A k = some e)
    (hfew : refs A e.frame < 2 ^ 32) :
    s.decRef e.addr = s.modifyPage e.frame fun q => { q with refCount := q.refCount - 1 } := by
  have hpos := h.refs_pos hk
  have hcount := h.refCount k e hk
  unfold decRef
  rw [show e.addr = e.frame * pageSize from e.addr_eq, h.physToPage (h.named_alloc k e hk)]
  simp only
  rw [if_pos]
  rw [hcount, lt_def, toNat_ofNat, Nat.mod_eq_of_lt hfew]
  exact hpos

theorem dropRef_spec (h : s.pmm.Held free alloc pages keep A) (hk : A k = some e)
    (hfew : refs A e.frame < 2 ^ 32) :
    ∃ pmm' free', s.dropRef e.addr 0 = { s with pmm := pmm' } ∧
      pmm'.Held free' (if refs A e.frame = 1 then alloc \ {⟨e.frame, 0⟩} else alloc) pages keep
        (update A k none) := by
  have hpos := h.refs_pos hk
  have hmod := h.unname hk
  have hcount : ((s.pmm.modify e.frame fun q => { q with refCount := q.refCount - 1 }).page
      e.frame).refCount = BitVec.ofNat 32 (refs A e.frame - 1) := by
    rw [modify_page, if_pos rfl]
    rw [h.refCount k e hk, show refs A e.frame = refs A e.frame - 1 + 1 by omega, ofNat_add]
    exact BitVec.add_sub_cancel _ _
  have hzero : BitVec.ofNat 32 (refs A e.frame - 1) = 0 ↔ refs A e.frame = 1 := by
    rw [← toNat_inj, toNat_ofNat]
    change _ = 0 ↔ _
    omega
  have hdrop : s.dropRef e.addr 0 = if refs A e.frame = 1 then
        { s with pmm := (s.pmm.modify e.frame fun q =>
          { q with refCount := q.refCount - 1 }).pmmFreePages e.frame 0 }
      else s.modifyPage e.frame fun q => { q with refCount := q.refCount - 1 } := by
    unfold dropRef
    rw [show e.addr = e.frame * pageSize from e.addr_eq, h.physToPage (h.named_alloc k e hk)]
    rw [show e.frame * pageSize = e.addr from e.addr_eq.symm, decRef_eq h hk hfew]
    simp only [modifyPage, hcount, hzero]
  rw [hdrop]
  by_cases h1 : refs A e.frame = 1
  · rw [if_pos h1, if_pos h1]
    have hne (k' : ℕ × ℕ) (e' : PtEntry) (h' : update A k none k' = some e') :
        e'.frame ≠ e.frame := by
      intro hc
      have hkk : k' ≠ k := by
        rintro rfl
        simp [update_self] at h'
      rw [update_of_ne hkk] at h'
      exact hkk (eq_of_count_eq_one h1 h' hc hk rfl)
    obtain ⟨free', hf⟩ := hmod.pmmFreePages (h.named_alloc k e hk) hne
    refine ⟨_, free', rfl, ?_⟩
    have hkeep : keep \ {e.frame} = keep := by
      apply Set.sdiff_singleton_eq_self
      intro hc
      exact h.keep_ne _ hc k e hk rfl
    rw [hkeep] at hf
    exact hf
  · rw [if_neg h1, if_neg h1]
    exact ⟨_, free, rfl, hmod⟩

end Mmu
end Doppio
