import Doppio.Mm.Slabs

/-! The heap as a whole: every object that was cut is live or in one slot of one magazine, and live
blocks are apart. -/
namespace Doppio
open Buddy Stacks Option

/-- Places of magazines, objects and blocks, which the kernel does not record. -/
structure HeapLayout where
  kind : ℕ → Option KmemClass
  use : Block → Option BlockUse
  free : ℕ → List ℕ
  alloc : Set Block
  shelf : Shelf → List ℕ
  contents : ℕ → List ℕ
  loc : ℕ → Option (ℕ × ℕ)

/-- The address of a magazine in a page of magazines. -/
def IsCell (use : Block → Option BlockUse) (a : ℕ) : Prop :=
  ∃ p i, use ⟨p, 0⟩ = some .magazines ∧ i < magazinesPerPage ∧ a = magazineAt (p * pageSize) i

section
variable (s : KmemHeap)

/-- `tbl`: the loaded magazines; `live`: the sizes requested for the live blocks. -/
structure HeapInv (tbl : Loaded) (live : ℕ → Option ℕ) (g : HeapLayout) : Prop where
  racked : Racked s tbl g.kind g.shelf g.contents
  stocked : Stocked s g.kind g.use g.free g.alloc
  stacked : Stacked g.contents g.loc
  shelf_cell : ∀ i, ∀ a ∈ g.shelf i, IsCell g.use a
  loaded_cell : ∀ c k a, tbl c k = some a → IsCell g.use a
  loc_eq_none : ∀ x, g.kind x ≠ none → (g.loc x = none ↔ live x ≠ none)
  live_cases : ∀ x n, live x = some n → (∃ k, g.kind x = some k ∧ n ≤ kmemClassSizes k) ∨
    ∃ b, g.use b = some .large ∧ x = b.head * pageSize ∧ n ≤ pageSize <<< b.order

def HeapSound (tbl : Loaded) (live : ℕ → Option ℕ) : Prop := ∃ g, HeapInv s tbl live g

def KmemHeap.failures : ℕ := s.pmm.outOfMemory.length

theorem KmemHeap.oldSize_pos (page : ℕ) : 0 < s.oldSize page := by
  unfold KmemHeap.oldSize
  split_ifs with hz
  · rw [Nat.shiftLeft_eq]
    exact Nat.mul_pos (by decide) (Nat.two_pow_pos _)
  · omega

/-- What most operations leave alone. -/
structure HeapKept (s s' : KmemHeap) : Prop where
  byte : s'.byte = s.byte
  failures : s.failures ≤ s'.failures
  totalPages : s'.pmm.totalPages = s.pmm.totalPages

theorem HeapKept.refl : HeapKept s s := ⟨rfl, le_rfl, rfl⟩

end

theorem HeapKept.trans {s1 s2 s3 : KmemHeap} (h : HeapKept s1 s2) (h' : HeapKept s2 s3) : HeapKept s1 s3 :=
  ⟨h'.byte.trans h.byte, h.failures.trans h'.failures, h'.totalPages.trans h.totalPages⟩

namespace HeapInv
open KmemHeap Pmm

variable {s s' : KmemHeap} {tbl : Loaded} {live : ℕ → Option ℕ} {g : HeapLayout} {c : ℕ} {k : KmemClass}
  {a x y : ℕ}

section
variable (h : HeapInv s tbl live g)
include h

theorem congr (hmag : s'.magazine = s.magazine) (hpmm : s'.pmm = s.pmm)
    (hsize : s'.objSize = s.objSize) (hfree : s'.freeMags = s.freeMags)
    (hdepots : s'.depots = s.depots) (hcarved : s'.carved = s.carved) : HeapInv s' tbl live g := by
  refine { h with
      racked := h.racked.congr hmag hfree (fun k => ?_) fun _ _ _ => rfl
      stocked := h.stocked.congr hpmm hsize hcarved fun k => ?_ }
  · rw [hdepots]
    exact ⟨rfl, rfl, rfl, rfl⟩
  · rw [hdepots]
    exact ⟨rfl, rfl, rfl⟩

theorem kind_of_mem (hx : x ∈ g.contents a) : g.kind x ≠ none := by
  rcases h.racked.only a (List.ne_nil_of_mem hx) with ⟨c, k, hc⟩ | ⟨k, hk⟩
  · rw [(h.racked.loaded c k a hc).kind x hx]
    simp
  · rw [(h.racked.full k a hk).1.kind x hx]
    simp

theorem loc_of_kind (hx : g.kind x = none) : g.loc x = none := by
  cases hl : g.loc x with
  | none => rfl
  | some q => exact absurd hx (h.kind_of_mem (h.stacked.mem.mpr ⟨q.2, hl⟩))

theorem extent {n : ℕ} (hx : live x = some n) :
    n ≤ s.oldSize (x / pageSize) ∧ ∃ b, g.use b ≠ none ∧
      ∀ i < s.oldSize (x / pageSize), (x + i) / pageSize ∈ b.pages := by
  unfold KmemHeap.oldSize
  rcases h.live_cases x n hx with ⟨k, hk, hn⟩ | ⟨b, hb, rfl, hn⟩
  · rw [h.stocked.objSize_of_kind hk, if_neg (kmemClassSizes_pos k).ne']
    obtain ⟨b, j, hb, hj, rfl⟩ := h.stocked.object x k hk
    exact ⟨hn, b, by rw [hb]; simp, fun i hi => objectAt_mem (h.stocked.chunk b k hb).1 hj hi⟩
  · obtain ⟨hz, ho⟩ := h.stocked.large b hb
    rw [Nat.mul_div_cancel _ (by decide), hz, if_pos rfl, ho]
    refine ⟨hn, b, by rw [hb]; simp, fun i hi => ?_⟩
    rw [mem_pages_div]
    omega

section
variable (hx : live x ≠ none)
include hx

theorem kind_of_live (hsize : s.objSize (x / pageSize) ≠ 0) :
    ∃ k, g.kind x = some k ∧ s.objSize (x / pageSize) = kmemClassSizes k := by
  obtain ⟨n, hn⟩ := ne_none_iff_exists'.mp hx
  rcases h.live_cases x n hn with ⟨k, hk, -⟩ | ⟨b, hb, rfl, -⟩
  · exact ⟨k, hk, h.stocked.objSize_of_kind hk⟩
  · rw [Nat.mul_div_cancel _ (by decide), (h.stocked.large b hb).1] at hsize
    exact absurd rfl hsize

theorem large_of_live (hsize : s.objSize (x / pageSize) = 0) :
    ∃ b, g.use b = some .large ∧ x = b.head * pageSize ∧ x / pageSize = b.head ∧
      (s.pmm.page (x / pageSize)).order = b.order := by
  obtain ⟨n, hn⟩ := ne_none_iff_exists'.mp hx
  rcases h.live_cases x n hn with ⟨k, hk, -⟩ | ⟨b, hb, rfl, -⟩
  · rw [h.stocked.objSize_of_kind hk] at hsize
    exact absurd hsize (kmemClassSizes_pos k).ne'
  · have hdiv : b.head * pageSize / pageSize = b.head := Nat.mul_div_cancel _ (by decide)
    refine ⟨b, hb, rfl, hdiv, ?_⟩
    rw [hdiv]
    exact (h.stocked.large b hb).2

theorem physToPage :
    s.pmm.physToPage x = some (x / pageSize) := by
  obtain ⟨n, hn⟩ := ne_none_iff_exists'.mp hx
  obtain ⟨-, b, hb, hmem⟩ := h.extent hn
  exact h.stocked.physToPage hb (hmem 0 (s.oldSize_pos _))

theorem live_in {b : Block} (hb : g.use b ≠ none)
    (hmem : x / pageSize ∈ b.pages) :
    (∃ k j, g.use b = some (.chunk k) ∧ x = objectAt k b j ∧
      s.oldSize (x / pageSize) = kmemClassSizes k) ∨
    (g.use b = some .large ∧ x = b.head * pageSize) := by
  obtain ⟨n, hn⟩ := ne_none_iff_exists'.mp hx
  rcases h.live_cases x n hn with ⟨k, hk, -⟩ | ⟨b', hb', hx', -⟩
  · left
    obtain ⟨b', j, hb', hj, hx'⟩ := h.stocked.object x k hk
    have hpage := objectAt_head_mem (h.stocked.chunk b' k hb').1 hj
    obtain rfl : b' = b := h.stocked.eq_of_mem (by rw [hb']; simp) hb (hx' ▸ hpage) hmem
    refine ⟨k, j, hb', hx', ?_⟩
    unfold KmemHeap.oldSize
    rw [h.stocked.objSize_of_kind hk, if_neg (kmemClassSizes_pos k).ne']
  · right
    have hdiv : x / pageSize = b'.head := by
      rw [hx']
      exact Nat.mul_div_cancel _ (by decide)
    obtain rfl : b' = b := h.stocked.eq_of_mem (by rw [hb']; simp) hb b'.head_mem (hdiv ▸ hmem)
    exact ⟨hb', hx'⟩

theorem disjoint (hy : live y ≠ none) (hxy : x ≠ y)
    {i j : ℕ} (hi : i < s.oldSize (x / pageSize)) (hj : j < s.oldSize (y / pageSize)) :
    x + i ≠ y + j := by
  intro heq
  obtain ⟨n, hn⟩ := ne_none_iff_exists'.mp hx
  obtain ⟨m, hm⟩ := ne_none_iff_exists'.mp hy
  obtain ⟨-, b, hb, hbx⟩ := h.extent hn
  obtain ⟨-, b', hb', hby⟩ := h.extent hm
  obtain rfl : b = b' := h.stocked.eq_of_mem hb hb' (hbx i hi) (heq ▸ hby j hj)
  rcases h.live_in hx hb (hbx 0 (s.oldSize_pos _)) with ⟨k, p, hk, rfl, hsx⟩ | ⟨hl, hxb⟩
  · rcases h.live_in hy hb (hby 0 (s.oldSize_pos _)) with ⟨k', q, hk', rfl, hsy⟩ | ⟨hl, -⟩
    · -- two objects of one chunk
      rw [hk] at hk'
      obtain rfl := BlockUse.chunk.inj (some.inj hk')
      have hpq : p ≠ q := fun e => hxy (by rw [e])
      unfold objectAt at heq
      rcases Nat.lt_or_gt_of_ne hpq with hlt | hlt
      · have hstep := Nat.mul_le_mul_right (kmemClassSizes k) (Nat.succ_le_of_lt hlt)
        rw [Nat.succ_mul] at hstep
        omega
      · have hstep := Nat.mul_le_mul_right (kmemClassSizes k) (Nat.succ_le_of_lt hlt)
        rw [Nat.succ_mul] at hstep
        omega
    · simp [hk] at hl
  · rcases h.live_in hy hb (hby 0 (s.oldSize_pos _)) with ⟨k', q, hk', -⟩ | ⟨-, hyb⟩
    · simp [hl] at hk'
    · exact hxy (hxb.trans hyb.symm)

end

end

end HeapInv
end Doppio
