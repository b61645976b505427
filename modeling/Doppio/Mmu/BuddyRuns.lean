import Doppio.Library.Run
import Doppio.Mmu.BuddyInvariant

/-! `pmm_alloc_pages` and `pmm_free_pages` keep the blocks, call by call and over runs. -/
namespace Doppio
open Function
open Buddy Set
namespace Pmm

variable {s s' : Pmm} {free : ℕ → List ℕ} {alloc : Set Block} {o p : ℕ} {b : Block}

def freeBlocks (free : ℕ → List ℕ) : Set Block := blocks free ∅

theorem mem_freeBlocks : b ∈ freeBlocks free ↔ b.order < maxOrder ∧ b.head ∈ free b.order := by
  simp [freeBlocks, blocks]

theorem mem_blocks : b ∈ blocks free alloc ↔ b ∈ freeBlocks free ∨ b ∈ alloc := by
  rw [mem_freeBlocks]
  rfl

structure Keeps (s s' : Pmm) : Prop where
  refCount : ∀ x, (s'.page x).refCount = (s.page x).refCount
  totalPages : s'.totalPages = s.totalPages
  outOfMemory : s'.outOfMemory = s.outOfMemory

theorem Keeps.trans {s1 s2 s3 : Pmm} (h : Keeps s1 s2) (h' : Keeps s2 s3) : Keeps s1 s3 :=
  ⟨fun x => (h'.refCount x).trans (h.refCount x), h'.totalPages.trans h.totalPages,
    h'.outOfMemory.trans h.outOfMemory⟩

variable {f : Page → Page}

theorem Keeps.modify (s : Pmm) (p : ℕ) (hf : ∀ q, (f q).refCount = q.refCount) :
    Keeps s (s.modify p f) := by
  refine ⟨fun x => ?_, rfl, rfl⟩
  rw [modify_page]
  split_ifs with hx
  · rw [hf, hx]
  · rfl

theorem Keeps.addToList (s : Pmm) (o node : ℕ) : Keeps s (s.addToList o node) := by
  refine ⟨fun x => Page.refCount_eq (addToList_data s o node x), ?_, ?_⟩
  all_goals
    unfold Pmm.addToList
    cases s.freeLists o <;> rfl

theorem Keeps.removeFromList (s : Pmm) (o t : ℕ) : Keeps s (s.removeFromList o t) := by
  refine ⟨fun x => Page.refCount_eq (removeFromList_data s o t x), ?_, ?_⟩
  all_goals
    unfold Pmm.removeFromList
    cases (s.page t).next <;> cases (s.page t).prev <;> rfl

theorem Shape.of_apart {alloc' : Set Block} (h : s.Shape free alloc)
    (ha : Apart s.totalPages (blocks free alloc')) (hn : ∀ b ∈ alloc', b.head ∉ free b.order) :
    s.Shape free alloc' :=
  { h with apart := ha, not_free := hn }

theorem Shape.not_mem_blocks (h : s.Shape free (insert b alloc)) (hb : b ∉ alloc) :
    b ∉ blocks free alloc := by
  rintro (hm | hm)
  · exact h.not_free b (mem_insert _ _) hm.2
  · exact hb hm

/-- One turn of the second loop of `pmm_alloc_pages`: the upper half is marked free and listed. -/
def giveUpper (s : Pmm) (buddy c : ℕ) : Pmm :=
  (s.modify buddy fun q => { q with isFree := true, order := c }).addToList c buddy

theorem Shape.giveUpper {c : ℕ} (h : s.Shape free (insert ⟨p, c + 1⟩ alloc))
    (hna : ⟨p, c + 1⟩ ∉ alloc) :
    s.getBuddy p c = some (p + 2 ^ c) ∧
      (s.giveUpper (p + 2 ^ c) c).Shape (update free c ((p + 2 ^ c) :: free c))
        (insert ⟨p, c⟩ alloc) ∧ ⟨p, c⟩ ∉ alloc ∧ Keeps s (s.giveUpper (p + 2 ^ c) c) ∧
      (∀ x, x ∉ (Block.mk p (c + 1)).pages →
        ((s.giveUpper (p + 2 ^ c) c).page x).isFree = (s.page x).isFree) ∧
      cover (blocks (update free c ((p + 2 ^ c) :: free c)) (insert ⟨p, c⟩ alloc)) =
        cover (blocks free (insert ⟨p, c + 1⟩ alloc)) := by
  have hmem : (⟨p, c + 1⟩ : Block) ∈ insert ⟨p, c + 1⟩ alloc := mem_insert _ _
  obtain ⟨hal, hbuddy, hparent⟩ := Block.lower_half (h.apart.aligned ⟨p, c + 1⟩ (.inr hmem))
  have hfit : p + 2 ^ (c + 1) ≤ s.totalPages := h.apart.fits ⟨p, c + 1⟩ (.inr hmem)
  have hc : c + 1 < maxOrder := h.apart.order_lt ⟨p, c + 1⟩ (.inr hmem)
  have hpos := Nat.two_pow_pos c
  have htotal := h.total_le
  have hout := h.not_mem_blocks hna
  -- the two halves in place of the block
  have hap := h.apart
  rw [blocks_insert, ← hparent] at hap
  rw [← hparent] at hout
  obtain ⟨hap', hnot, hnot'⟩ := Apart.halve hal hout hap
  rw [hbuddy] at hap' hnot hnot'
  have hc' : c < maxOrder := by omega
  have hupper : p + 2 ^ c ∈ (Block.mk p (c + 1)).pages := by
    change p ≤ p + 2 ^ c ∧ p + 2 ^ c < p + 2 ^ (c + 1)
    omega
  let s1 := s.modify (p + 2 ^ c) fun q => { q with isFree := true, order := c }
  have hs1 : s1.Shape free (insert ⟨p + 2 ^ c, c⟩ (insert ⟨p, c⟩ alloc)) := by
    have hmod : s1.Shape free (insert ⟨p, c + 1⟩ alloc) :=
      h.modify fun o' ho' => h.not_mem_free hmem hupper ho'
    apply hmod.of_apart
    · rw [insert_comm, blocks_insert, blocks_insert]
      exact hap'
    · rintro b (rfl | rfl | hb)
      · exact h.not_mem_free hmem hupper hc'
      · exact h.not_mem_free hmem (Block.head_mem ⟨p, c + 1⟩) hc'
      · exact h.not_free b (.inr hb)
  have hnu : (⟨p + 2 ^ c, c⟩ : Block) ∉ insert ⟨p, c⟩ alloc := by
    rintro (hm | hm)
    · have := congrArg Block.head hm
      simp only at this
      omega
    · exact hnot' (.inr hm)
  have hput := hs1.put hnu (by simp [s1]) (by simp [s1])
  refine ⟨?_, hput, ?_, ?_, ?_, ?_⟩
  · rw [getBuddy_eq s (by omega), hbuddy, if_neg]
    change ¬ s.totalPages ≤ p + 2 ^ c
    omega
  · exact fun hm => hnot (.inr (.inr hm))
  · have hk1 : Keeps s s1 := Keeps.modify s _ fun q => rfl
    exact hk1.trans (Keeps.addToList s1 c _)
  · intro x hx
    rw [Pmm.giveUpper, Page.isFree_eq (addToList_data _ c _ x)]
    have hne : x ≠ p + 2 ^ c := fun e => hx (e ▸ hupper)
    simp [hne]
  · rw [blocks_put (by omega), blocks_insert, blocks_insert, insert_comm, ← hbuddy,
      cover_halves hal, hparent]

theorem splitBlock_spec {c : ℕ} (h : s.Shape free (insert ⟨p, c⟩ alloc)) (hna : ⟨p, c⟩ ∉ alloc)
    (hle : o ≤ c) :
    ∃ s' free', s.splitBlock p o c = some s' ∧ s'.Shape free' (insert ⟨p, o⟩ alloc) ∧
      ⟨p, o⟩ ∉ alloc ∧ Keeps s s' ∧
      (∀ x, x ∉ (Block.mk p c).pages → (s'.page x).isFree = (s.page x).isFree) ∧
      cover (blocks free' (insert ⟨p, o⟩ alloc)) = cover (blocks free (insert ⟨p, c⟩ alloc)) ∧
      ∀ b ∈ freeBlocks free', b ∈ freeBlocks free ∨ ∃ j, 2 ^ (j + 1) ∣ p ∧ b = ⟨p + 2 ^ j, j⟩ := by
  induction c generalizing s free with
  | zero =>
    obtain rfl : o = 0 := Nat.le_zero.mp hle
    exact ⟨s, free, rfl, h, hna, ⟨fun _ => rfl, rfl, rfl⟩, fun _ _ => rfl, rfl, fun b hb => .inl hb⟩
  | succ c ih =>
    have hal : 2 ^ (c + 1) ∣ p := h.apart.aligned ⟨p, c + 1⟩ (.inr (mem_insert _ _))
    have hc : c + 1 < maxOrder := h.apart.order_lt ⟨p, c + 1⟩ (.inr (mem_insert _ _))
    obtain ⟨hget, hs1, hna1, hk1, hf1, hcov1⟩ := h.giveUpper hna
    by_cases ho : o < c + 1
    · have hstep : s.splitBlock p o (c + 1) = (s.giveUpper (p + 2 ^ c) c).splitBlock p o c := by
        rw [splitBlock, if_pos ho, hget]
        rfl
      obtain ⟨s', free', he, hs', hna', hk', hf', hcov', hnew⟩ := ih hs1 hna1 (by omega)
      refine ⟨s', free', hstep.trans he, hs', hna', hk1.trans hk', fun x hx => ?_,
        hcov'.trans hcov1, fun b hb => ?_⟩
      · have hx' : x ∉ (Block.mk p c).pages := by
          intro hm
          apply hx
          change p ≤ x ∧ x < p + 2 ^ c at hm
          change p ≤ x ∧ x < p + 2 ^ (c + 1)
          omega
        rw [hf' x hx', hf1 x hx]
      · rcases hnew b hb with hb | hb
        · rw [freeBlocks, blocks_put (by omega)] at hb
          rcases hb with rfl | hb
          · exact .inr ⟨c, hal, rfl⟩
          · exact .inl hb
        · exact .inr hb
    · obtain rfl : o = c + 1 := by omega
      have hstep : s.splitBlock p (c + 1) (c + 1) = some s := by
        rw [splitBlock, if_neg (lt_irrefl _)]
      exact ⟨s, free, hstep, h, hna, ⟨fun _ => rfl, rfl, rfl⟩, fun _ _ => rfl, rfl,
        fun b hb => .inl hb⟩

theorem findBlock_spec (s : Pmm) (n o : ℕ) (hn : maxOrder ≤ o + n) :
    (∃ p c, s.findBlock n o = some (p, c) ∧ o ≤ c ∧ c < maxOrder ∧ s.freeLists c = some p) ∨
      (s.findBlock n o = none ∧ ∀ c, o ≤ c → c < maxOrder → s.freeLists c = none) := by
  induction n generalizing o with
  | zero =>
    right
    exact ⟨rfl, fun c h1 h2 => by omega⟩
  | succ n ih =>
    unfold findBlock
    split_ifs with ho
    · cases hl : s.freeLists o with
      | some p => exact .inl ⟨p, o, rfl, le_rfl, ho, hl⟩
      | none =>
        rcases ih (o + 1) (by omega) with ⟨p, c, h1, h2, h3, h4⟩ | ⟨h1, h2⟩
        · exact .inl ⟨p, c, h1, by omega, h3, h4⟩
        · refine .inr ⟨h1, fun c hc hc' => ?_⟩
          rcases Nat.eq_or_lt_of_le hc with rfl | hc
          · exact hl
          · exact h2 c hc hc'
    · exact .inr ⟨rfl, fun c h1 h2 => by omega⟩

/-- Free lists beside the allocated blocks: only pages of blocks are marked free, and heads of
allocated blocks are not. -/
structure Wf (s : Pmm) (free : ℕ → List ℕ) (alloc : Set Block) : Prop where
  shape : s.Shape free alloc
  alloc_flag : ∀ b ∈ alloc, (s.page b.head).isFree = false
  free_flag : ∀ x, (s.page x).isFree → x ∈ cover (blocks free alloc)

/-- No free block below the largest order has a free buddy. -/
def NoFreeBuddies (free : ℕ → List ℕ) : Prop :=
  ∀ b ∈ freeBlocks free, b.order < maxOrder - 1 → b.buddy ∉ freeBlocks free

structure Allocated (s : Pmm) (free : ℕ → List ℕ) (alloc : Set Block) (o : ℕ) (s' : Pmm)
    (free' : ℕ → List ℕ) (p : ℕ) : Prop where
  wf : s'.Wf free' (insert ⟨p, o⟩ alloc)
  fresh : ⟨p, o⟩ ∉ alloc
  cover_eq : cover (blocks free' (insert ⟨p, o⟩ alloc)) = cover (blocks free alloc)
  buddies : NoFreeBuddies free → NoFreeBuddies free'
  refCount_self : (s'.page p).refCount = 0
  refCount : ∀ x, x ≠ p → (s'.page x).refCount = (s.page x).refCount
  totalPages : s'.totalPages = s.totalPages
  outOfMemory : s'.outOfMemory = s.outOfMemory

theorem Allocated.ne {s' : Pmm} {free' : ℕ → List ℕ} {o p q : ℕ}
    (ha : Allocated s free alloc o s' free' p) (hq : ⟨q, o⟩ ∈ alloc) : q ≠ p := by
  rintro rfl
  exact ha.fresh hq

theorem pmmAllocPages_spec (h : s.Wf free alloc) (o : ℕ) :
    (∃ s' free' p, s.pmmAllocPages o = some (s', some p) ∧ Allocated s free alloc o s' free' p) ∨
      (s.pmmAllocPages o = some ({ s with outOfMemory := s.outOfMemory ++ [o] }, none) ∧
        ∀ c, o ≤ c → c < maxOrder → free c = []) := by
  rcases findBlock_spec s maxOrder o (by omega) with ⟨p, c, hfind, hoc, hc, hhead⟩ | ⟨hfind, hnone⟩
  · left
    rw [(h.shape.linked c hc).head_eq] at hhead
    have hp : p ∈ free c := List.mem_of_head? hhead
    have hna : ⟨p, c⟩ ∉ alloc := fun hm => h.shape.not_free _ hm hp
    have hn := h.shape.nodup c hc
    obtain ⟨s2, free2, hsplit, hs2, hna2, hk2, hf2, hcov2, hnew2⟩ :=
      splitBlock_spec (h.shape.take hc hp) hna hoc
    rw [blocks_take hn hc hp] at hcov2
    have hk := (Keeps.removeFromList s c p).trans hk2
    have hmem : (⟨p, o⟩ : Block) ∈ insert ⟨p, o⟩ alloc := mem_insert _ _
    let s3 := s2.modify p fun q => { q with isFree := false, order := o, refCount := 0 }
    have hs3 : s3.Shape free2 (insert ⟨p, o⟩ alloc) :=
      hs2.modify fun o' ho' => hs2.not_mem_free hmem (Block.head_mem _) ho'
    have hpage (x : ℕ) (hx : x ≠ p) : s3.page x = s2.page x := by simp [s3, hx]
    have hflag (x : ℕ) (hx : x ∉ (Block.mk p c).pages) :
        (s2.page x).isFree = (s.page x).isFree := by
      rw [hf2 x hx, Page.isFree_eq (removeFromList_data s c p x)]
    have hbp : (⟨p, c⟩ : Block) ∈ blocks free alloc := mem_blocks_of_free hc hp
    refine ⟨s3, free2, p, ?_, ⟨hs3, ?_, ?_⟩, hna2, hcov2, ?_, ?_, ?_, hk.totalPages, hk.outOfMemory⟩
    · simp [pmmAllocPages, hfind, hsplit, s3]
    · rintro b (rfl | hb)
      · simp [s3]
      · -- the other allocated blocks lie outside the block that was cut
        have hout : b.head ∉ (Block.mk p c).pages := by
          intro hm
          have he := h.shape.apart.eq_of_mem (.inr hb) hbp b.head_mem hm
          exact hna (he ▸ hb)
        have hne : b.head ≠ p := fun e => hout (e ▸ Block.head_mem ⟨p, c⟩)
        rw [hpage _ hne, hflag _ hout]
        exact h.alloc_flag b hb
    · intro x hx
      rw [hcov2]
      by_cases hxc : x ∈ (Block.mk p c).pages
      · exact ⟨_, hbp, hxc⟩
      · have hne : x ≠ p := fun e => hxc (e ▸ Block.head_mem ⟨p, c⟩)
        rw [hpage x hne, hflag x hxc] at hx
        exact h.free_flag x hx
    · intro hno b hb hord hbud
      -- a new free block has the allocated page in its buddy
      have hnew (d : Block) (hd : d ∈ freeBlocks free2) :
          d ∈ freeBlocks free ∨ ∃ j, d.buddy = ⟨p, j⟩ := by
        rcases hnew2 d hd with hd | ⟨j, hj, rfl⟩
        · left
          rw [mem_freeBlocks] at hd ⊢
          exact ⟨hd.1, ((mem_update_erase hn).mp hd.2).1⟩
        · right
          rw [← (Block.lower_half hj).2.1, Block.buddy_buddy]
          exact ⟨j, rfl⟩
      have hpfree (j : ℕ) : ⟨p, j⟩ ∉ freeBlocks free2 := by
        intro hm
        rw [mem_freeBlocks] at hm
        exact hs3.not_mem_free hmem (Block.head_mem _) hm.1 hm.2
      rcases hnew b hb with hb' | ⟨j, hj⟩
      · rcases hnew _ hbud with hbud' | ⟨j, hj⟩
        · exact hno b hb' hord hbud'
        · rw [Block.buddy_buddy] at hj
          exact hpfree j (hj ▸ hb)
      · exact hpfree j (hj ▸ hbud)
    · simp [s3]
    · intro x hx
      rw [hpage x hx, hk.refCount]
  · right
    refine ⟨by simp [pmmAllocPages, hfind], fun c h1 h2 => ?_⟩
    have := (h.shape.linked c h2).head_eq
    rw [hnone c h1 h2] at this
    exact List.head?_eq_none_iff.mp this.symm

/-- The block of `pmm_free_pages`, marked free with its order but on no list. -/
structure InHand (s : Pmm) (free : ℕ → List ℕ) (alloc : Set Block) (b : Block) : Prop where
  shape : s.Shape free (insert b alloc)
  not_alloc : b ∉ alloc
  isFree : (s.page b.head).isFree
  order : (s.page b.head).order = b.order
  alloc_flag : ∀ c ∈ alloc, (s.page c.head).isFree = false
  free_flag : ∀ x, (s.page x).isFree → x ∈ cover (blocks free (insert b alloc))

theorem InHand.mem (_ : InHand s free alloc b) : b ∈ blocks free (insert b alloc) :=
  .inr (mem_insert _ _)

theorem InHand.aligned (h : InHand s free alloc b) : b.Aligned := h.shape.apart.aligned b h.mem

theorem InHand.buddy_ne (h : InHand s free alloc b) : b.buddy ≠ b := by
  intro e
  have hdis := Set.disjoint_left.mp h.aligned.disjoint_buddy b.head_mem
  rw [e] at hdis
  exact hdis b.head_mem

/-- The buddy test never reads a stale mark: a buddy marked free with the order heads a free block.
-/
theorem InHand.buddy_free (h : InHand s free alloc b) (hq : (s.page b.buddy.head).isFree)
    (hord : (s.page b.buddy.head).order = b.order) : b.buddy.head ∈ free b.order := by
  have hal := h.aligned
  obtain ⟨c, hc, hmem⟩ := h.free_flag _ hq
  have hcal := h.shape.apart.aligned c hc
  have hhead : c.head = b.buddy.head := by
    rcases Nat.lt_or_ge b.order c.order with hlt | hge
    · -- a larger block around the buddy would contain the freed block as well
      have hsub := hcal.parent_subset hal.buddy hlt hmem
      have hbc : b.head ∈ c.pages := by
        apply hsub
        rw [hal.buddy.mem_parent, Block.buddy_buddy]
        exact .inr b.head_mem
      have he := h.shape.apart.eq_of_mem h.mem hc b.head_mem hbc
      rw [he] at hlt
      exact absurd hlt (lt_irrefl _)
    · exact hcal.head_eq hal.buddy hge hmem
  rcases mem_blocks.mp hc with hc | hc | hc
  · rw [mem_freeBlocks] at hc
    have ho := (h.shape.flagged c.order hc.1 c.head hc.2).2
    rw [hhead, hord] at ho
    rw [← hhead, ho]
    exact hc.2
  · have hdis := Set.disjoint_left.mp hal.disjoint_buddy b.head_mem
    rw [hc] at hhead
    rw [hhead] at hdis
    exact absurd b.buddy.head_mem hdis
  · have := h.alloc_flag c hc
    simp [hhead, hq] at this

/-- The block in hand has grown to `b'`. -/
structure Merged (s : Pmm) (free : ℕ → List ℕ) (alloc : Set Block) (b : Block) (s' : Pmm)
    (free' : ℕ → List ℕ) (b' : Block) : Prop where
  inHand : InHand s' free' alloc b'
  cover_eq : cover (blocks free' (insert b' alloc)) = cover (blocks free (insert b alloc))
  subset : freeBlocks free' ⊆ freeBlocks free
  keeps : Keeps s s'

theorem InHand.merge (h : InHand s free alloc b) (ho : b.order < maxOrder - 1)
    (hq : b.buddy.head ∈ free b.order) :
    Merged s free alloc b ((s.removeFromList b.order b.buddy.head).modify b.parent.head
        fun p => { p with order := b.order + 1 })
      (update free b.order ((free b.order).erase b.buddy.head)) b.parent := by
  have hb' : b.order < maxOrder := by omega
  have hal := h.aligned
  have hn := h.shape.nodup _ hb'
  have hne := h.buddy_ne
  have hbuddy : b.buddy ∉ insert b alloc := by
    rintro (hm | hm)
    · exact hne hm
    · exact h.shape.not_free b.buddy (.inr hm) hq
  let free1 := update free b.order ((free b.order).erase b.buddy.head)
  let s1 := s.removeFromList b.order b.buddy.head
  have hs1 : s1.Shape free1 (insert b.buddy (insert b alloc)) := h.shape.take hb' hq
  have hblocks : blocks free1 (insert b.buddy (insert b alloc)) = blocks free (insert b alloc) :=
    blocks_take hn hb' hq
  have hblocks' : blocks free1 (insert b.buddy (insert b alloc)) =
      insert b (insert b.buddy (blocks free1 alloc)) := by
    rw [insert_comm, blocks_insert, blocks_insert]
  have hout : b.buddy ∉ blocks free1 alloc := by
    intro hm
    apply hs1.not_mem_blocks hbuddy
    rcases hm with hm | hm
    · exact .inl hm
    · exact .inr (.inr hm)
  have hout' : b ∉ insert b.buddy (blocks free1 alloc) := by
    rintro (hm | hm | hm)
    · exact hne hm.symm
    · exact hs1.not_free b (.inr (.inl rfl)) hm.2
    · exact h.not_alloc hm
  have hap := hs1.apart
  rw [hblocks'] at hap
  obtain ⟨hjoin, hparent⟩ := Apart.join hout' hout (show b.order + 1 < maxOrder by omega) hap
  have hs2 : s1.Shape free1 (insert b.parent alloc) := by
    apply hs1.of_apart
    · rw [blocks_insert]
      exact hjoin
    · rintro c (rfl | hc)
      · intro hm
        exact hparent (.inl ⟨show b.order + 1 < maxOrder by omega, hm⟩)
      · exact hs1.not_free c (.inr (.inr hc))
  let s2 := s1.modify b.parent.head fun p => { p with order := b.order + 1 }
  have hs3 : s2.Shape free1 (insert b.parent alloc) :=
    hs2.modify fun o ho => hs2.not_mem_free (.inl rfl) (Block.head_mem _) ho
  have hfree (x : ℕ) : (s2.page x).isFree = (s.page x).isFree := by
    rw [← Page.isFree_eq (removeFromList_data s b.order b.buddy.head x)]
    simp only [s2, modify_page]
    split_ifs with hx
    · rw [hx]
    · rfl
  have hcov : cover (blocks free1 (insert b.parent alloc)) =
      cover (blocks free (insert b alloc)) := by
    rw [blocks_insert, ← cover_halves hal, ← hblocks', hblocks]
  refine ⟨⟨hs3, fun hm => hparent (.inr hm), ?_, ?_, ?_, ?_⟩, hcov, ?_, ?_⟩
  · rw [hfree]
    change (s.page (min b.head b.buddy.head)).isFree
    rcases min_choice b.head b.buddy.head with hm | hm
    · rw [hm]
      exact h.isFree
    · rw [hm]
      exact (h.shape.flagged _ hb' _ hq).1
  · rw [modify_page, if_pos rfl]
    rfl
  · intro c hc
    rw [hfree]
    exact h.alloc_flag c hc
  · intro x hx
    rw [hfree] at hx
    rw [hcov]
    exact h.free_flag x hx
  · intro c hc
    rw [mem_freeBlocks] at hc ⊢
    exact ⟨hc.1, ((mem_update_erase hn).mp hc.2).1⟩
  · exact (Keeps.removeFromList s _ _).trans (Keeps.modify _ _ fun _ => rfl)

theorem mergeBlock_spec (n : ℕ) (h : InHand s free alloc b) (hn : maxOrder - 1 ≤ b.order + n) :
    ∃ s' free' b', s.mergeBlock n b.head b.order = (s', b'.head, b'.order) ∧
      Merged s free alloc b s' free' b' ∧
      (b'.order < maxOrder - 1 → b'.buddy ∉ freeBlocks free') := by
  have hstop : Merged s free alloc b s free b := ⟨h, rfl, subset_rfl, ⟨fun _ => rfl, rfl, rfl⟩⟩
  induction n generalizing s free b with
  | zero => exact ⟨s, free, b, rfl, hstop, fun ho => by omega⟩
  | succ n ih =>
    have hfit := h.shape.apart.fits b h.mem
    have htotal := h.shape.total_le
    have hpos := Nat.two_pow_pos b.order
    unfold mergeBlock
    by_cases ho : b.order < maxOrder - 1
    · rw [if_pos ho, getBuddy_eq s (by omega)]
      by_cases hend : s.totalPages ≤ b.buddy.head
      · refine ⟨s, free, b, by rw [if_pos hend], hstop, fun _ hm => ?_⟩
        have := h.shape.apart.fits _ (mem_blocks.mpr (.inl hm))
        have := Nat.two_pow_pos b.buddy.order
        omega
      rw [if_neg hend]
      by_cases htest : (s.page b.buddy.head).isFree = false ∨ (s.page b.buddy.head).order ≠ b.order
      · refine ⟨s, free, b, if_pos htest, hstop, fun _ hm => ?_⟩
        rw [mem_freeBlocks] at hm
        have hm' := h.shape.flagged _ hm.1 _ hm.2
        rcases htest with htest | htest
        · exact Bool.false_ne_true (htest.symm.trans hm'.1)
        · exact htest hm'.2
      · rw [not_or, Bool.not_eq_false, not_not] at htest
        have hm := h.merge ho (h.buddy_free htest.1 htest.2)
        obtain ⟨s', free', b', he, hm', hno⟩ := ih hm.inHand
          (show maxOrder - 1 ≤ b.order + 1 + n by omega)
          ⟨hm.inHand, rfl, subset_rfl, ⟨fun _ => rfl, rfl, rfl⟩⟩
        refine ⟨s', free', b', ?_, ⟨hm'.inHand, hm'.cover_eq.trans hm.cover_eq,
          hm'.subset.trans hm.subset, hm.keeps.trans hm'.keeps⟩, hno⟩
        have hpage : (if b.buddy.head < b.head then b.buddy.head else b.head) = b.parent.head := by
          change _ = min b.head b.buddy.head
          rw [min_comm, min_def_lt]
        simp only
        rw [if_neg (by rw [not_or, Bool.not_eq_false, not_not]; exact htest)]
        rw [hpage]
        exact he
    · rw [if_neg ho]
      exact ⟨s, free, b, rfl, hstop, fun hc => absurd hc ho⟩

structure Freed (s : Pmm) (free : ℕ → List ℕ) (alloc : Set Block) (b : Block) (s' : Pmm)
    (free' : ℕ → List ℕ) : Prop where
  wf : s'.Wf free' (alloc \ {b})
  cover_eq : cover (blocks free' (alloc \ {b})) = cover (blocks free alloc)
  buddies : NoFreeBuddies free → NoFreeBuddies free'
  keeps : Keeps s s'

theorem Wf.inHand (h : s.Wf free (insert b alloc)) (hb : b ∉ alloc) :
    InHand (s.modify b.head fun p => { p with isFree := true, order := b.order }) free alloc b := by
  have hmem : b ∈ insert b alloc := mem_insert _ _
  have hpage (x : ℕ) (hx : x ≠ b.head) :
      (s.modify b.head fun p => { p with isFree := true, order := b.order }).page x = s.page x := by
    simp [hx]
  constructor
  · exact h.shape.modify fun o ho => h.shape.not_mem_free hmem b.head_mem ho
  · exact hb
  · simp
  · simp
  · intro c hc
    have hne : c.head ≠ b.head := by
      intro e
      have he := h.shape.apart.eq_of_mem (.inr (.inr hc)) (.inr hmem) c.head_mem (e ▸ b.head_mem)
      exact hb (he ▸ hc)
    rw [hpage _ hne]
    exact h.alloc_flag c (.inr hc)
  · intro x hx
    by_cases hxb : x = b.head
    · exact ⟨b, .inr hmem, hxb ▸ b.head_mem⟩
    · rw [hpage x hxb] at hx
      exact h.free_flag x hx

theorem InHand.cover_put (h : InHand s free alloc b) :
    cover (blocks (update free b.order (b.head :: free b.order)) alloc) =
      cover (blocks free (insert b alloc)) := by
  rw [blocks_put (h.shape.apart.order_lt b h.mem), blocks_insert]

theorem InHand.put (h : InHand s free alloc b) :
    (s.addToList b.order b.head).Wf (update free b.order (b.head :: free b.order)) alloc := by
  have hflag (x : ℕ) : ((s.addToList b.order b.head).page x).isFree = (s.page x).isFree :=
    Page.isFree_eq (addToList_data s _ _ x)
  refine ⟨h.shape.put h.not_alloc h.isFree h.order, ?_, ?_⟩
  · intro c hc
    rw [hflag]
    exact h.alloc_flag c hc
  · intro x hx
    rw [hflag] at hx
    rw [h.cover_put]
    exact h.free_flag x hx

theorem pmmFreePages_spec (h : s.Wf free alloc) (hb : b ∈ alloc) :
    ∃ free', Freed s free alloc b (s.pmmFreePages b.head b.order) free' := by
  have hins : insert b (alloc \ {b}) = alloc := insert_sdiff_self_of_mem hb
  have hnot : b ∉ alloc \ {b} := fun hm => hm.2 rfl
  let s1 := s.modify b.head fun p => { p with isFree := true, order := b.order }
  have hhand : InHand s1 free (alloc \ {b}) b := Wf.inHand (hins.symm ▸ h) hnot
  obtain ⟨s2, free2, b', he, hm, hno⟩ := mergeBlock_spec maxOrder hhand (by omega)
  have ho' := hm.inHand.shape.apart.order_lt b' hm.inHand.mem
  have hres : s.pmmFreePages b.head b.order = s2.addToList b'.order b'.head :=
    congrArg (fun r : Pmm × ℕ × ℕ => r.1.addToList r.2.2 r.2.1) he
  have hcov := hm.inHand.cover_put.trans (hm.cover_eq.trans (by rw [hins]))
  rw [hres]
  refine ⟨_, hm.inHand.put, hcov, ?_, ?_⟩
  · intro hbud c hc hord hcb
    rw [freeBlocks, blocks_put ho'] at hc hcb
    rcases hc with rfl | hc
    · rcases hcb with hcb | hcb
      · exact hm.inHand.buddy_ne hcb
      · exact hno hord hcb
    · rcases hcb with hcb | hcb
      · have he' : c = b'.buddy := by
          rw [← Block.buddy_buddy c, hcb]
        rw [he'] at hc hord
        exact hno hord hc
      · exact hbud c (hm.subset hc) hord (hm.subset hcb)
  · have hk1 : Keeps s s1 := Keeps.modify s _ fun q => rfl
    exact (hk1.trans hm.keeps).trans (Keeps.addToList s2 _ _)

/-- Pages not marked free afterwards were not before, and keep their `order`. -/
def OrdersKept (s s' : Pmm) : Prop :=
  ∀ x, (s'.page x).isFree = false → (s.page x).isFree = false ∧ (s'.page x).order = (s.page x).order

theorem OrdersKept.trans {s1 s2 s3 : Pmm} (h : OrdersKept s1 s2) (h' : OrdersKept s2 s3) :
    OrdersKept s1 s3 := by
  intro x hx
  obtain ⟨hf, ho⟩ := h' x hx
  exact ⟨(h x hf).1, ho.trans (h x hf).2⟩

theorem OrdersKept.of_data (h : ∀ x, (s'.page x).data = (s.page x).data) : OrdersKept s s' :=
  fun x hx => ⟨(Page.isFree_eq (h x)).symm.trans hx, Page.order_eq (h x)⟩

theorem OrdersKept.modify (hf : (f (s.page p)).isFree) :
    OrdersKept s (s.modify p f) := by
  intro x hx
  rw [modify_page] at hx ⊢
  split_ifs at hx ⊢ with hxp
  · simp [hf] at hx
  · exact ⟨hx, rfl⟩

theorem splitBlock_ordersKept {c : ℕ} (h : s.splitBlock p o c = some s') : OrdersKept s s' := by
  induction c generalizing s with
  | zero =>
    cases h
    exact fun x hx => ⟨hx, rfl⟩
  | succ c ih =>
    unfold splitBlock at h
    split_ifs at h with ho
    · obtain ⟨buddy, -, h⟩ := Option.bind_eq_some_iff.mp h
      refine OrdersKept.trans ?_ (ih h)
      exact (OrdersKept.modify (by simp)).trans (.of_data (addToList_data _ _ _))
    · cases h
      exact fun x hx => ⟨hx, rfl⟩

theorem pmmAllocPages_order (h : s.pmmAllocPages o = some (s', some p)) {x : ℕ} (hx : x ≠ p)
    (hf : (s'.page x).isFree = false) : (s'.page x).order = (s.page x).order := by
  unfold pmmAllocPages at h
  split at h
  · exact absurd (congrArg (Option.map Prod.snd) h) (by simp)
  · rename_i page c _
    obtain ⟨s1, hs1, h⟩ := Option.bind_eq_some_iff.mp h
    obtain ⟨rfl, hp⟩ := Prod.mk.inj (Option.some.inj h)
    obtain rfl := Option.some.inj hp
    have hk := (OrdersKept.of_data (removeFromList_data s c page)).trans (splitBlock_ordersKept hs1)
    rw [modify_page, if_neg hx] at hf ⊢
    exact (hk x hf).2

theorem mergeBlock_ordersKept (n page order : ℕ) (hp : (s.page page).isFree) :
    OrdersKept s (s.mergeBlock n page order).1 := by
  have hrefl : OrdersKept s s := fun x hx => ⟨hx, rfl⟩
  induction n generalizing s page order with
  | zero => exact hrefl
  | succ n ih =>
    unfold mergeBlock
    split_ifs with ho
    · cases hb : s.getBuddy page order with
      | none => exact hrefl
      | some buddy =>
        simp only
        split_ifs with htest hlt
        · exact hrefl
        all_goals
          rw [not_or, Bool.not_eq_false] at htest
          have hdata := removeFromList_data s order buddy
          refine OrdersKept.trans ((OrdersKept.of_data hdata).trans (OrdersKept.modify ?_))
            (ih _ _ ?_ fun x hx => ⟨hx, rfl⟩)
          · simpa [Page.isFree_eq (hdata _)] using by first | exact htest.1 | exact hp
          · simpa [Page.isFree_eq (hdata _)] using by first | exact htest.1 | exact hp
    · exact hrefl

theorem pmmFreePages_ordersKept (s : Pmm) (p o : ℕ) : OrdersKept s (s.pmmFreePages p o) := by
  have h1 : OrdersKept s (s.modify p fun q => { q with isFree := true, order := o }) :=
    .modify rfl
  have h2 : OrdersKept _ ((s.modify p fun q => { q with isFree := true, order := o }).mergeBlock
      maxOrder p o).1 := mergeBlock_ordersKept maxOrder p o (by simp)
  exact (h1.trans h2).trans (.of_data (addToList_data _ _ _))

theorem Wf.modify_head (h : s.Wf free alloc) (hb : b ∈ alloc)
    (hf : (f (s.page b.head)).isFree = false) : (s.modify b.head f).Wf free alloc := by
  refine ⟨h.shape.modify fun o ho => h.shape.not_mem_free hb b.head_mem ho, fun c hc => ?_,
    fun x hx => ?_⟩
  · rw [modify_page]
    split_ifs with hcb
    · exact hf
    · exact h.alloc_flag c hc
  · rw [modify_page] at hx
    split_ifs at hx
    · simp [hf] at hx
    · exact h.free_flag x hx

theorem Wf.coalesced (h : s.Wf free alloc) (hb : NoFreeBuddies free) :
    Coalesced maxOrder (freeBlocks free) := by
  have hin {b : Block} (hb : b ∈ freeBlocks free) : b ∈ blocks free alloc :=
    mem_blocks.mpr (.inl hb)
  have ha := h.shape.apart
  constructor
  · exact fun b hb => ha.order_lt b (hin hb)
  · exact fun b hb => ha.aligned b (hin hb)
  · exact fun b hb c hc x hx hx' => ha.eq_of_mem (hin hb) (hin hc) hx hx'
  · exact fun b hb' ho => hb b hb' (by omega)

theorem Wf.mem_cover_free (h : s.Wf free alloc) (x : ℕ) :
    (∃ b ∈ freeBlocks free, x ∈ b.pages) ↔ x ∈ cover (blocks free alloc) ∧ x ∉ cover alloc := by
  constructor
  · rintro ⟨b, hb, hx⟩
    have hb' : b ∈ blocks free alloc := mem_blocks.mpr (.inl hb)
    refine ⟨⟨b, hb', hx⟩, ?_⟩
    rintro ⟨c, hc, hx'⟩
    obtain rfl := h.shape.apart.eq_of_mem hb' (.inr hc) hx hx'
    exact h.shape.not_free b hc (mem_freeBlocks.mp hb).2
  · rintro ⟨⟨b, hb, hx⟩, hn⟩
    rcases mem_blocks.mp hb with hb | hb
    · exact ⟨b, hb, hx⟩
    · exact absurd ⟨b, hb, hx⟩ hn

structure Owned where
  pmm : Pmm
  alloc : Set Block

inductive Call where
  | pmmAllocPages (order : ℕ)
  | pmmFreePages (page order : ℕ)

namespace Owned

def step (st : Owned) : Call → Option Owned
  | .pmmAllocPages order => do
    let (s, page) ← st.pmm.pmmAllocPages order
    match page with
    | some p => pure ⟨s, insert ⟨p, order⟩ st.alloc⟩
    | none => pure ⟨s, st.alloc⟩
  | .pmmFreePages page order => some ⟨st.pmm.pmmFreePages page order, st.alloc \ {⟨page, order⟩}⟩

def Next (st : Owned) (c : Call) (st' : Owned) : Prop := st.step c = some st'

/-- Orders below `MAX_ORDER`; a block is freed at its order. -/
def Allowed (st : Owned) : Call → Prop
  | .pmmAllocPages order => order < maxOrder
  | .pmmFreePages page order => ⟨page, order⟩ ∈ st.alloc

/-- The free lists are well formed beside the blocks held, and both cover the pages they covered at
first. -/
structure Keeping (free₀ : ℕ → List ℕ) (pages : Set ℕ) (st : Owned) (free : ℕ → List ℕ) : Prop where
  wf : st.pmm.Wf free st.alloc
  cover_eq : cover (blocks free st.alloc) = pages
  buddies : NoFreeBuddies free₀ → NoFreeBuddies free

theorem Keeping.step {free₀ : ℕ → List ℕ} {pages : Set ℕ} {st : Owned}
    (h : Keeping free₀ pages st free) (c : Call) (hc : st.Allowed c) :
    ∃ st' free', st.step c = some st' ∧ Keeping free₀ pages st' free' := by
  cases c with
  | pmmAllocPages order =>
    rcases pmmAllocPages_spec h.wf order with ⟨s', free', p, he, ha⟩ | ⟨he, -⟩
    · refine ⟨⟨s', insert ⟨p, order⟩ st.alloc⟩, free', ?_, ha.wf, ha.cover_eq.trans h.cover_eq,
        fun hb => ha.buddies (h.buddies hb)⟩
      simp [Owned.step, he]
    · refine ⟨⟨{ st.pmm with outOfMemory := st.pmm.outOfMemory ++ [order] }, st.alloc⟩, free, ?_,
        ⟨?_, h.wf.alloc_flag, h.wf.free_flag⟩, h.cover_eq, h.buddies⟩
      · simp [Owned.step, he]
      · exact { h.wf.shape with }
  | pmmFreePages page order =>
    obtain ⟨free', hf⟩ := pmmFreePages_spec h.wf hc
    exact ⟨_, free', rfl, hf.wf, hf.cover_eq.trans h.cover_eq, fun hb => hf.buddies (h.buddies hb)⟩

theorem exists_keeping {st st' : Owned} (h : st.pmm.Wf free st.alloc)
    (hr : Run.Reaches Next Allowed st st') :
    ∃ free', Keeping free (cover (blocks free st.alloc)) st' free' := by
  apply hr.invariant
  · rintro st1 c st2 ⟨free1, h1⟩ hc he
    obtain ⟨st3, free3, he3, h3⟩ := h1.step c hc
    obtain rfl : st3 = st2 := Option.some.inj (he3.symm.trans he)
    exact ⟨free3, h3⟩
  · exact ⟨free, h, rfl, id⟩

/-- The free and the allocated blocks stay aligned and apart, cover the same pages, and are linked
and marked on their lists; no free block meets its free buddy unless one did at first; and every
further call returns. -/
theorem reaches_wf {st st' : Owned} (h : st.pmm.Wf free st.alloc)
    (hr : Run.Reaches Next Allowed st st') :
    ∃ free', st'.pmm.Wf free' st'.alloc ∧
      cover (blocks free' st'.alloc) = cover (blocks free st.alloc) ∧
      (NoFreeBuddies free → NoFreeBuddies free') ∧
      ∀ c, st'.Allowed c → ∃ st'', st'.step c = some st'' := by
  obtain ⟨free', h'⟩ := exists_keeping h hr
  refine ⟨free', h'.wf, h'.cover_eq, h'.buddies, fun c hc => ?_⟩
  obtain ⟨st'', _, he, -⟩ := h'.step c hc
  exact ⟨st'', he⟩

def twoPages : Owned :=
  ⟨⟨fun i => ⟨none, none, 0, if i = 0 then 1 else 0, i = 0⟩, fun o => if o = 1 then some 0 else none,
    2, []⟩, ∅⟩

def twoPagesFree (o : ℕ) : List ℕ := if o = 1 then [0] else []

theorem blocks_twoPages : blocks twoPagesFree twoPages.alloc = {⟨0, 1⟩} := by
  ext ⟨q, o⟩
  simp only [blocks, twoPages, twoPagesFree, mem_ofPred_eq, mem_singleton_iff,
    Block.mk.injEq, mem_empty_iff_false, or_false]
  by_cases ho : o = 1 <;> simp [ho, maxOrder]

theorem twoPages_wf : twoPages.pmm.Wf twoPagesFree twoPages.alloc := by
  constructor
  · constructor
    · intro o ho
      by_cases h1 : o = 1 <;> simp [twoPages, twoPagesFree, h1, Linked]
    · intro o ho
      by_cases h1 : o = 1 <;> simp [twoPagesFree, h1]
    · intro o ho p hp
      by_cases h1 : o = 1
      · simp_all [twoPages, twoPagesFree]
      · simp [twoPagesFree, h1] at hp
    · rw [blocks_twoPages]
      constructor <;> simp [maxOrder, Block.Aligned, twoPages]
    · simp [twoPages]
    · decide
  · simp [twoPages]
  · intro x hx
    rw [blocks_twoPages]
    have hx0 : x = 0 := by simpa [twoPages] using hx
    exact ⟨_, rfl, hx0 ▸ Block.head_mem _⟩

theorem reaches_wf_twoPages :
    ∃ st', Run.Reaches Next Allowed twoPages st' ∧ (⟨0, 0⟩ : Block) ∈ st'.alloc ∧
      ∃ free', st'.pmm.Wf free' st'.alloc ∧
        cover (blocks free' st'.alloc) = cover (blocks twoPagesFree twoPages.alloc) ∧
        (NoFreeBuddies twoPagesFree → NoFreeBuddies free') ∧
        ∀ c, st'.Allowed c → ∃ st'', st'.step c = some st'' := by
  have he : ∃ s', twoPages.pmm.pmmAllocPages 0 = some (s', some 0) := ⟨_, rfl⟩
  obtain ⟨s', he⟩ := he
  have hr : Run.Reaches Next Allowed twoPages ⟨s', insert ⟨0, 0⟩ twoPages.alloc⟩ :=
    .single (.pmmAllocPages 0) (show 0 < maxOrder by decide) (by simp [Next, step, he])
  exact ⟨_, hr, mem_insert _ _, reaches_wf twoPages_wf hr⟩

/-- Free lists that merge every pair of buddies depend on the allocated blocks alone: two histories
that end with the same blocks held leave the same blocks on every list. -/
theorem reaches_history_free {st st1 st2 : Owned} (h : st.pmm.Wf free st.alloc)
    (hb : NoFreeBuddies free) (h1 : Run.Reaches Next Allowed st st1)
    (h2 : Run.Reaches Next Allowed st st2) (hal : st1.alloc = st2.alloc) :
    ∃ free1 free2 : ℕ → List ℕ, ∀ o < maxOrder,
      Linked st1.pmm.page none (st1.pmm.freeLists o) (free1 o) ∧
      Linked st2.pmm.page none (st2.pmm.freeLists o) (free2 o) ∧ (free1 o).Perm (free2 o) := by
  obtain ⟨free1, k1⟩ := exists_keeping h h1
  obtain ⟨free2, k2⟩ := exists_keeping h h2
  have hx (x : ℕ) : (∃ b ∈ freeBlocks free1, x ∈ b.pages) ↔ ∃ b ∈ freeBlocks free2, x ∈ b.pages := by
    rw [k1.wf.mem_cover_free, k2.wf.mem_cover_free, k1.cover_eq, k2.cover_eq, hal]
  have c1 := k1.wf.coalesced (k1.buddies hb)
  have c2 := k2.wf.coalesced (k2.buddies hb)
  have he := Set.Subset.antisymm (c1.subset c2 hx) (c2.subset c1 fun x => (hx x).symm)
  refine ⟨free1, free2, fun o ho => ⟨k1.wf.shape.linked o ho, k2.wf.shape.linked o ho, ?_⟩⟩
  rw [List.perm_ext_iff_of_nodup (k1.wf.shape.nodup o ho) (k2.wf.shape.nodup o ho)]
  intro p
  have := Set.ext_iff.mp he ⟨p, o⟩
  rwa [mem_freeBlocks, mem_freeBlocks, and_iff_right ho, and_iff_right ho] at this

theorem reaches_history_free_twoPages :
    ∃ st, Run.Reaches Next Allowed twoPages st ∧ st.alloc = twoPages.alloc ∧
      ∃ free1 free2 : ℕ → List ℕ, ∀ o < maxOrder,
        Linked st.pmm.page none (st.pmm.freeLists o) (free1 o) ∧
        Linked twoPages.pmm.page none (twoPages.pmm.freeLists o) (free2 o) ∧
          (free1 o).Perm (free2 o) := by
  obtain ⟨s', he⟩ : ∃ s', twoPages.pmm.pmmAllocPages 0 = some (s', some 0) := ⟨_, rfl⟩
  have h1 : Run.Reaches Next Allowed twoPages ⟨s', insert ⟨0, 0⟩ twoPages.alloc⟩ :=
    .single (.pmmAllocPages 0) (show 0 < maxOrder by decide) (by simp [Next, step, he])
  have h2 := h1.trans (.single (.pmmFreePages 0 0) (mem_insert _ _) rfl)
  have hal : insert ⟨0, 0⟩ twoPages.alloc \ {⟨0, 0⟩} = twoPages.alloc := by simp [twoPages]
  refine ⟨_, h2, hal, reaches_history_free twoPages_wf ?_ h2 (.refl _) hal⟩
  have hf : freeBlocks twoPagesFree = {⟨0, 1⟩} := blocks_twoPages
  rw [NoFreeBuddies, hf]
  rintro b rfl - hbud
  exact absurd (congrArg Block.head hbud) (by decide)

end Owned
end Pmm
end Doppio
