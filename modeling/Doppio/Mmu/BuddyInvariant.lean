import Doppio.Mmu.FreeList

/-! The free and the allocated blocks of the page allocator: aligned, apart, and together always the
same pages. -/
namespace Doppio
open Function Nat
open Buddy List Set
namespace Pmm

def blocks (free : ℕ → List ℕ) (alloc : Set Block) : Set Block :=
  {b | (b.order < maxOrder ∧ b.head ∈ free b.order) ∨ b ∈ alloc}

def cover (bs : Set Block) : Set ℕ := {x | ∃ b ∈ bs, x ∈ b.pages}

/-- Blocks of the array, aligned and apart. -/
structure Apart (totalPages : ℕ) (bs : Set Block) : Prop where
  order_lt : ∀ b ∈ bs, b.order < maxOrder
  aligned : ∀ b ∈ bs, b.Aligned
  fits : ∀ b ∈ bs, b.head + 2 ^ b.order ≤ totalPages
  disjoint : ∀ b ∈ bs, ∀ c ∈ bs, b ≠ c → Disjoint b.pages c.pages

/-- The lists `free` are the free lists, apart from each other and the allocated blocks. -/
structure Shape (s : Pmm) (free : ℕ → List ℕ) (alloc : Set Block) : Prop where
  linked : ∀ o < maxOrder, Linked s.page none (s.freeLists o) (free o)
  nodup : ∀ o < maxOrder, (free o).Nodup
  flagged : ∀ o < maxOrder, ∀ p ∈ free o, (s.page p).isFree ∧ (s.page p).order = o
  apart : Apart s.totalPages (blocks free alloc)
  not_free : ∀ b ∈ alloc, b.head ∉ free b.order
  total_le : s.totalPages ≤ 2 ^ 52

variable {bs : Set Block} {c : Block} {n : ℕ}

theorem Apart.eq_of_mem {x : ℕ} (h : Apart n bs) {b : Block} (hb : b ∈ bs)
    (hc : c ∈ bs) (hxb : x ∈ b.pages) (hxc : x ∈ c.pages) : b = c := by
  by_contra hne
  exact Set.disjoint_left.mp (h.disjoint b hb c hc hne) hxb hxc

variable {s s' : Pmm} {free : ℕ → List ℕ} {alloc : Set Block} {o p : ℕ} {b : Block}

theorem mem_blocks_of_free (ho : o < maxOrder) (hp : p ∈ free o) : ⟨p, o⟩ ∈ blocks free alloc :=
  .inl ⟨ho, hp⟩

theorem mem_update_erase {q o' : ℕ} (hn : (free o).Nodup) :
    q ∈ update free o ((free o).erase p) o' ↔ q ∈ free o' ∧ ¬ (o' = o ∧ q = p) := by
  by_cases ho : o' = o
  · subst ho
    rw [update_self, hn.mem_erase_iff]
    tauto
  · rw [update_of_ne ho]
    tauto

theorem blocks_take (hn : (free o).Nodup) (ho : o < maxOrder) (hp : p ∈ free o) :
    blocks (update free o ((free o).erase p)) (insert ⟨p, o⟩ alloc) = blocks free alloc := by
  ext ⟨q, o'⟩
  simp only [blocks, mem_ofPred_eq, mem_update_erase hn, mem_insert_iff, Block.mk.injEq]
  constructor
  · rintro (⟨h, hq, -⟩ | ⟨rfl, rfl⟩ | h)
    · exact .inl ⟨h, hq⟩
    · exact .inl ⟨ho, hp⟩
    · exact .inr h
  · rintro (⟨h, hq⟩ | h)
    · by_cases he : o' = o ∧ q = p
      · exact .inr (.inl ⟨he.2, he.1⟩)
      · exact .inl ⟨h, hq, he⟩
    · exact .inr (.inr h)

section
variable (h : s.Shape free alloc)
include h

theorem Shape.order_unique {o' : ℕ} (ho : o < maxOrder)
    (ho' : o' < maxOrder) (hp : p ∈ free o) (hp' : p ∈ free o') : o = o' := by
  have he := h.apart.eq_of_mem (mem_blocks_of_free ho hp) (mem_blocks_of_free ho' hp')
    (Block.head_mem _) (Block.head_mem _)
  exact congrArg Block.order he

theorem Shape.not_mem_free {x : ℕ} (hb : b ∈ alloc) (hx : x ∈ b.pages)
    (ho : o < maxOrder) : x ∉ free o := by
  intro hp
  have he := h.apart.eq_of_mem (mem_blocks_of_free ho hp) (.inr hb) (Block.head_mem _) hx
  apply h.not_free b hb
  rw [← he]
  exact hp

theorem Shape.modify {f : Page → Page}
    (hp : ∀ o < maxOrder, p ∉ free o) : (s.modify p f).Shape free alloc := by
  have hpage (o : ℕ) (ho : o < maxOrder) (x : ℕ) (hx : x ∈ free o) :
      (s.modify p f).page x = s.page x := by
    rw [modify_page, if_neg]
    rintro rfl
    exact hp o ho hx
  constructor
  · intro o ho
    apply (h.linked o ho).congr
    intro x hx
    rw [hpage o ho x hx]
    exact ⟨rfl, rfl⟩
  · exact h.nodup
  · intro o ho x hx
    rw [hpage o ho x hx]
    exact h.flagged o ho x hx
  · exact h.apart
  · exact h.not_free
  · exact h.total_le

theorem Shape.neighbours (ho : o < maxOrder) {xs ys : List ℕ}
    (hxy : free o = xs ++ p :: ys) :
    (s.page p).next = ys.head? ∧ (s.page p).prev = xs.getLast? := by
  have hl := h.linked o ho
  rw [hxy] at hl
  have := hl.next_eq
  rwa [Option.or_none] at this

theorem Shape.take (ho : o < maxOrder) (hp : p ∈ free o) :
    (s.removeFromList o p).Shape (update free o ((free o).erase p)) (insert ⟨p, o⟩ alloc) := by
  obtain ⟨xs, ys, hxy⟩ := append_of_mem hp
  obtain ⟨hnext, hprev⟩ := h.neighbours ho hxy
  have hn := h.nodup o ho
  have hn' := hn
  rw [hxy, nodup_append, nodup_cons] at hn'
  obtain ⟨-, ⟨hpy, -⟩, hdis⟩ := hn'
  have hpx : p ∉ xs := fun hx => hdis p hx p (by simp) rfl
  have hmemx {j : ℕ} (hj : (s.page p).prev = some j) : j ∈ xs :=
    mem_of_getLast? (hprev ▸ hj)
  have hmemy {j : ℕ} (hj : (s.page p).next = some j) : j ∈ ys :=
    mem_of_head? (hnext ▸ hj)
  obtain ⟨hpage, hheads, htotal⟩ := removeFromList_spec s o p
    (fun hj => hpx (hmemx hj)) (fun hj => hpy (hmemy hj))
    (fun j hj hj' => hdis j (hmemx hj) j (by simp [hmemy hj']) rfl)
  have herase : (free o).erase p = xs ++ ys := by
    rw [hxy, erase_append_right _ hpx, erase_cons_head]
  have hblocks : blocks (update free o ((free o).erase p)) (insert ⟨p, o⟩ alloc) =
      blocks free alloc := blocks_take hn ho hp
  constructor
  · intro o' ho'
    by_cases hoo : o' = o
    · subst hoo
      rw [update_self, herase, hheads]
      have hl := h.linked o' ho'
      rw [hxy] at hl
      have hne (x : ℕ) (hx : x ∈ xs ++ ys) : x ≠ p := by
        rintro rfl
        rcases mem_append.mp hx with hx | hx
        · exact hpx hx
        · exact hpy hx
      have hrem := hl.remove (s.removeFromList o' p).page (hxy ▸ hn)
        (fun x hx => by rw [hpage]; simp only [if_neg (hne x hx), hprev])
        (fun x hx => by rw [hpage]; simp only [if_neg (hne x hx)])
      by_cases hxs : xs = []
      · rw [if_pos ⟨rfl, by rw [hprev, hxs]; rfl⟩]
        rwa [if_pos hxs] at hrem
      · rw [if_neg (fun hc => hxs (getLast?_eq_none_iff.mp (hprev ▸ hc.2)))]
        rwa [if_neg hxs] at hrem
    · rw [update_of_ne hoo, hheads, if_neg (fun hc => hoo hc.1)]
      apply (h.linked o' ho').congr
      intro x hx
      have hx' : x ∉ free o := fun hx' => hoo (h.order_unique ho' ho hx hx')
      rw [hxy, mem_append, mem_cons, not_or, not_or] at hx'
      rw [hpage]
      refine ⟨?_, ?_⟩
      · rw [if_neg hx'.2.1, if_neg (fun hj => hx'.1 (hmemx hj))]
      · simp only
        rw [if_neg hx'.2.1, if_neg (fun hj => hx'.2.2 (hmemy hj))]
  · intro o' ho'
    by_cases hoo : o' = o
    · subst hoo
      rw [update_self]
      exact hn.erase p
    · rw [update_of_ne hoo]
      exact h.nodup o' ho'
  · intro o' ho' q hq
    rw [mem_update_erase hn] at hq
    rw [hpage]
    exact h.flagged o' ho' q hq.1
  · rw [hblocks, htotal]
    exact h.apart
  · intro b hb
    rw [mem_update_erase hn]
    rcases Set.mem_insert_iff.mp hb with rfl | hb
    · simp
    · exact fun hc => h.not_free b hb hc.1
  · rw [htotal]
    exact h.total_le

end

theorem blocks_insert (free : ℕ → List ℕ) (alloc : Set Block) (b : Block) :
    blocks free (insert b alloc) = insert b (blocks free alloc) := by
  ext c
  simp only [blocks, mem_ofPred_eq, mem_insert_iff]
  tauto

theorem blocks_put (ho : o < maxOrder) :
    blocks (update free o (p :: free o)) alloc = insert ⟨p, o⟩ (blocks free alloc) := by
  ext ⟨q, o'⟩
  simp only [blocks, mem_ofPred_eq, mem_insert_iff, Block.mk.injEq]
  by_cases hoo : o' = o
  · subst hoo
    rw [update_self, mem_cons]
    tauto
  · rw [update_of_ne hoo]
    tauto

theorem Shape.put (h : s.Shape free (insert ⟨p, o⟩ alloc)) (hna : ⟨p, o⟩ ∉ alloc)
    (hfree : (s.page p).isFree) (hord : (s.page p).order = o) :
    (s.addToList o p).Shape (update free o (p :: free o)) alloc := by
  have hmem : (⟨p, o⟩ : Block) ∈ insert ⟨p, o⟩ alloc := mem_insert _ _
  have ho : o < maxOrder := h.apart.order_lt ⟨p, o⟩ (.inr hmem)
  have hp (o' : ℕ) (ho' : o' < maxOrder) : p ∉ free o' :=
    h.not_mem_free hmem (Block.head_mem _) ho'
  have hhead (o' : ℕ) (ho' : o' < maxOrder) : s.freeLists o' = (free o').head? :=
    (h.linked o' ho').head_eq
  obtain ⟨hpage, hheads, htotal⟩ := addToList_spec s o p (by
    rw [hhead o ho]
    intro hc
    exact hp o ho (mem_of_head? hc))
  constructor
  · intro o' ho'
    by_cases hoo : o' = o
    · subst hoo
      rw [update_self, hheads, if_pos rfl]
      have hne (x : ℕ) (hx : x ∈ free o') : x ≠ p := fun e => hp o' ho' (e ▸ hx)
      apply (h.linked o' ho').cons
      · exact nodup_cons.mpr ⟨hp o' ho', h.nodup o' ho'⟩
      · simp [hpage]
      · simp [hpage]
      · intro x hx
        simp [hpage, hne x hx]
    · rw [update_of_ne hoo, hheads, if_neg hoo]
      apply (h.linked o' ho').congr
      intro x hx
      have hxp : x ≠ p := fun e => hp o' ho' (e ▸ hx)
      have hxo : s.freeLists o ≠ some x := by
        rw [hhead o ho]
        intro hc
        exact hoo (h.order_unique ho' ho hx (mem_of_head? hc))
      simp [hpage, hxp, hxo]
  · intro o' ho'
    by_cases hoo : o' = o
    · subst hoo
      rw [update_self]
      exact nodup_cons.mpr ⟨hp o' ho', h.nodup o' ho'⟩
    · rw [update_of_ne hoo]
      exact h.nodup o' ho'
  · intro o' ho' q hq
    rw [hpage]
    by_cases hoo : o' = o
    · subst hoo
      rw [update_self, mem_cons] at hq
      rcases hq with rfl | hq
      · exact ⟨hfree, hord⟩
      · exact h.flagged o' ho' q hq
    · rw [update_of_ne hoo] at hq
      exact h.flagged o' ho' q hq
  · rw [blocks_put ho, htotal, ← blocks_insert]
    exact h.apart
  · intro b hb hc
    by_cases hbo : b.order = o
    · rw [hbo, update_self, mem_cons] at hc
      rcases hc with hc | hc
      · apply hna
        rw [← hc, ← hbo]
        exact hb
      · exact h.not_free b (mem_insert_of_mem _ hb) (hbo ▸ hc)
    · rw [update_of_ne hbo] at hc
      exact h.not_free b (mem_insert_of_mem _ hb) hc
  · rw [htotal]
    exact h.total_le

theorem apart_insert (hb : b ∉ bs) :
    Apart n (insert b bs) ↔ Apart n bs ∧ b.order < maxOrder ∧ b.Aligned ∧
      b.head + 2 ^ b.order ≤ n ∧ ∀ c ∈ bs, Disjoint b.pages c.pages := by
  constructor
  · intro h
    refine ⟨⟨fun c hc => h.order_lt c (.inr hc), fun c hc => h.aligned c (.inr hc),
      fun c hc => h.fits c (.inr hc), fun c hc d hd => h.disjoint c (.inr hc) d (.inr hd)⟩,
      h.order_lt b (.inl rfl), h.aligned b (.inl rfl), h.fits b (.inl rfl), fun c hc => ?_⟩
    exact h.disjoint b (.inl rfl) c (.inr hc) fun e => hb (e ▸ hc)
  · rintro ⟨h, h1, h2, h3, h4⟩
    constructor
    · rintro c (rfl | hc)
      · exact h1
      · exact h.order_lt c hc
    · rintro c (rfl | hc)
      · exact h2
      · exact h.aligned c hc
    · rintro c (rfl | hc)
      · exact h3
      · exact h.fits c hc
    · rintro c (rfl | hc) d (rfl | hd) hne
      · exact absurd rfl hne
      · exact h4 d hd
      · exact (h4 c hc).symm
      · exact h.disjoint c hc d hd hne

theorem Apart.halve (hc : c.Aligned) (hp : c.parent ∉ bs) (h : Apart n (insert c.parent bs)) :
    Apart n (insert c (insert c.buddy bs)) ∧ c ∉ insert c.buddy bs ∧ c.buddy ∉ bs := by
  obtain ⟨h0, h1, -, h3, h4⟩ := (apart_insert hp).mp h
  have hsub : c.pages ⊆ c.parent.pages := fun x hx => hc.mem_parent.mpr (.inl hx)
  have hsub' : c.buddy.pages ⊆ c.parent.pages := fun x hx => hc.mem_parent.mpr (.inr hx)
  have hout {d : Block} (hd : d.pages ⊆ c.parent.pages) : d ∉ bs := by
    intro hmem
    exact Set.disjoint_left.mp (h4 d hmem) (hd d.head_mem) d.head_mem
  have hne : c ≠ c.buddy := by
    intro e
    have := Set.disjoint_left.mp hc.disjoint_buddy c.head_mem
    rw [← e] at this
    exact this c.head_mem
  have hcb : c ∉ insert c.buddy bs := by
    rintro (hm | hm)
    · exact hne hm
    · exact hout hsub hm
  have horder : c.order + 1 < maxOrder := h1
  have hfit : min c.head c.buddy.head + 2 ^ (c.order + 1) ≤ n := h3
  have hfits : c.head + 2 ^ c.order ≤ n ∧ c.buddy.head + 2 ^ c.order ≤ n := by
    rw [pow_succ] at hfit
    rcases hc.halves with ⟨he, -⟩ | ⟨he, -⟩ <;> omega
  refine ⟨(apart_insert hcb).mpr ⟨(apart_insert (hout hsub')).mpr ⟨h0, ?_, hc.buddy, hfits.2, ?_⟩,
    lt_of_succ_lt horder, hc, hfits.1, ?_⟩, hcb, hout hsub'⟩
  · exact lt_of_succ_lt horder
  · intro d hd
    exact (h4 d hd).mono_left hsub'
  · rintro d (rfl | hd)
    · exact hc.disjoint_buddy
    · exact (h4 d hd).mono_left hsub

theorem Apart.join (hc : c ∉ insert c.buddy bs) (hb : c.buddy ∉ bs) (ho : c.order + 1 < maxOrder)
    (h : Apart n (insert c (insert c.buddy bs))) : Apart n (insert c.parent bs) ∧ c.parent ∉ bs := by
  obtain ⟨h', -, hal, hfit, hdis⟩ := (apart_insert hc).mp h
  obtain ⟨h0, -, -, hfit', hdis'⟩ := (apart_insert hb).mp h'
  have hdisj (d : Block) (hd : d ∈ bs) : Disjoint c.parent.pages d.pages := by
    rw [Set.disjoint_left]
    intro x hx
    rcases hal.mem_parent.mp hx with hx | hx
    · exact Set.disjoint_left.mp (hdis d (.inr hd)) hx
    · exact Set.disjoint_left.mp (hdis' d hd) hx
  have hout : c.parent ∉ bs := by
    intro hmem
    exact Set.disjoint_left.mp (hdisj _ hmem) c.parent.head_mem c.parent.head_mem
  refine ⟨(apart_insert hout).mpr ⟨h0, ho, hal.parent, ?_, hdisj⟩, hout⟩
  change min c.head c.buddy.head + 2 ^ (c.order + 1) ≤ n
  change c.buddy.head + 2 ^ c.order ≤ n at hfit'
  rcases hal.halves with ⟨he, -⟩ | ⟨he, -⟩ <;> omega

theorem cover_insert (bs : Set Block) (b : Block) : cover (insert b bs) = b.pages ∪ cover bs := by
  ext x
  simp [cover]

theorem cover_halves (hc : c.Aligned) (bs : Set Block) :
    cover (insert c (insert c.buddy bs)) = cover (insert c.parent bs) := by
  ext x
  simp only [cover_insert, mem_union, hc.mem_parent]
  tauto

theorem getBuddy_eq (s : Pmm) {p o : ℕ} (hp : p < 2 ^ 52) :
    s.getBuddy p o = if s.totalPages ≤ (Block.mk p o).buddy.head then none
      else some (Block.mk p o).buddy.head := by
  have hphys : pageToPhys p = p <<< 12 := by
    rw [pageToPhys, pageSize, shiftLeft_eq, mod_eq_of_lt (by omega)]
  have hsize : pageSize <<< o = (2 ^ o) <<< 12 := by
    rw [pageSize, shiftLeft_eq, shiftLeft_eq, mul_comm]
  have hdiv : (pageToPhys p ^^^ pageSize <<< o) / pageSize = p ^^^ 2 ^ o := by
    rw [hphys, hsize, ← shiftLeft_xor_distrib, shiftLeft_eq]
    exact Nat.mul_div_cancel _ (by decide)
  rw [getBuddy, physToPage, hdiv]
  rfl

end Pmm
end Doppio
