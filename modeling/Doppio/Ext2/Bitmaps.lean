import Doppio.Ext2.Store
import Mathlib.Algebra.BigOperators.Group.Finset.Basic
import Mathlib.Order.Interval.Finset.Nat

/-! What allocating and freeing a block changes: its bit in the bitmap, and the count in the
descriptor of its group. -/
namespace Doppio
namespace Ext2
open Function
open Bytes List Nat

namespace Fs
variable (fs : Fs)

theorem desc_injective {g h : ℕ} (hblock : fs.descBlock g = fs.descBlock h)
    (hoff : fs.descOff g = fs.descOff h) : g = h := by
  unfold descBlock at hblock
  unfold descOff at hoff
  have hdiv : g / fs.descPerBlock = h / fs.descPerBlock := by omega
  have hmod : g % fs.descPerBlock = h % fs.descPerBlock := by omega
  rw [← div_add_mod g fs.descPerBlock, ← div_add_mod h fs.descPerBlock, hdiv, hmod]

theorem descOff_disjoint {g h : ℕ} (hne : fs.descOff g ≠ fs.descOff h) :
    fs.descOff g + 32 ≤ fs.descOff h ∨ fs.descOff h + 32 ≤ fs.descOff g := by
  unfold descOff at *
  omega

end Fs

variable {fs : Fs} {s : Store} {bg m : ℕ}

/-- A bitmap with one bit changed is written to the block `m`, then the descriptor with a new
count. -/
def mark (fs : Fs) (m : ℕ) (s : Store) (bg : ℕ) (bitmap : Buf) (count : ℕ) : Store :=
  writeBgDesc fs (s.writeBlock m bitmap) bg (setBgFreeBlocksCount (readBgDesc fs s bg) count)

section Mark
variable {bitmap : Buf} {count : ℕ}

theorem mark_blocks {b : ℕ} (hb : b ≠ m) (hd : b ≠ fs.descBlock bg) :
    (mark fs m s bg bitmap count).blocks b = s.blocks b := by
  show update _ _ _ _ = _
  rw [update_of_ne hd]
  exact update_of_ne hb _ _

section
variable (hm : m ≠ fs.descBlock bg)
include hm

theorem mark_bitmap : (mark fs m s bg bitmap count).blocks m = bitmap := by
  show update _ _ _ _ = _
  rw [update_of_ne hm]
  exact update_self ..

theorem mark_desc :
    (mark fs m s bg bitmap count).blocks (fs.descBlock bg) =
      splice (s.blocks (fs.descBlock bg)) (fs.descOff bg) 32
        (setBgFreeBlocksCount (readBgDesc fs s bg) count) := by
  show update _ _ _ _ = _
  rw [update_self]
  congr 1
  exact update_of_ne hm.symm _ _

theorem le_mark_desc {g off n : ℕ} (hg : m ≠ fs.descBlock g)
    (hoff : off + n ≤ 12) : le (readBgDesc fs (mark fs m s bg bitmap count) g) off n =
      le (readBgDesc fs s g) off n := by
  unfold readBgDesc
  rw [le_shift, le_shift]
  by_cases hblock : fs.descBlock g = fs.descBlock bg
  · rw [hblock, mark_desc hm]
    by_cases hsame : fs.descOff g = fs.descOff bg
    · rw [hsame, le_splice (by omega) (by omega), Nat.add_sub_cancel_left,
        setBgFreeBlocksCount, le_putLe_of_disjoint (.inl hoff)]
      unfold readBgDesc
      rw [le_shift]
    · refine le_splice_of_disjoint ?_
      have := fs.descOff_disjoint hsame
      omega
  · rw [mark_blocks hg.symm hblock]

theorem count_mark_self :
    bgFreeBlocksCount (readBgDesc fs (mark fs m s bg bitmap count) bg) = count % 2 ^ 16 := by
  have hlt : count % 2 ^ 16 < 256 ^ 2 := mod_lt _ (by decide)
  unfold bgFreeBlocksCount readBgDesc
  rw [le_shift, mark_desc hm, le_splice (by omega) (by omega), Nat.add_sub_cancel_left,
    setBgFreeBlocksCount, le_putLe_self hlt]

theorem count_mark_of_ne {g : ℕ} (hg : m ≠ fs.descBlock g)
    (hne : g ≠ bg) : bgFreeBlocksCount (readBgDesc fs (mark fs m s bg bitmap count) g) =
      bgFreeBlocksCount (readBgDesc fs s g) := by
  unfold bgFreeBlocksCount readBgDesc
  rw [le_shift, le_shift]
  by_cases hblock : fs.descBlock g = fs.descBlock bg
  · rw [hblock, mark_desc hm]
    apply le_splice_of_disjoint
    have := fs.descOff_disjoint fun hoff => hne (fs.desc_injective hblock hoff)
    omega
  · rw [mark_blocks hg.symm hblock]

end

end Mark

section Room

/-- The free blocks of a group, as `findFree` looks. -/
def clear (fs : Fs) (bitmap : Buf) (bg : ℕ) : Finset ℕ :=
  let start := bg * fs.blocksPerGroup
  (Finset.Ico start (min ((start + fs.blocksPerGroup) % 2 ^ 32) fs.blocksCount)).filter
    fun blk => blk ≠ 0 ∧ ¬bit bitmap (blk - start)

/-- The blocks that can be allocated in a group, at most the descriptor's count. -/
def room (fs : Fs) (s : Store) (bg : ℕ) : ℕ :=
  let bgd := readBgDesc fs s bg
  min (bgFreeBlocksCount bgd) (clear fs (s.blocks (bgBlockBitmap bgd)) bg).card

variable {bitmap : Buf} {blk : ℕ}

theorem mem_clear : blk ∈ clear fs bitmap bg ↔ (bg * fs.blocksPerGroup ≤ blk ∧
      blk < min ((bg * fs.blocksPerGroup + fs.blocksPerGroup) % 2 ^ 32) fs.blocksCount) ∧
      blk ≠ 0 ∧ bit bitmap (blk - bg * fs.blocksPerGroup) = false := by
  simp [clear]

theorem findFree_mem_clear (h : findFree fs bitmap bg = some blk) : blk ∈ clear fs bitmap bg := by
  have hfree := List.find?_some h
  have hmem := mem_of_find?_eq_some h
  simp only [decide_eq_true_eq, Bool.not_eq_true] at hfree
  simp only [mem_range'_1] at hmem
  exact mem_clear.mpr ⟨by omega, hfree⟩

theorem clear_eq_empty (h : findFree fs bitmap bg = none) : clear fs bitmap bg = ∅ := by
  rw [Finset.eq_empty_iff_forall_notMem]
  intro blk hblk
  obtain ⟨hspan, hfree⟩ := mem_clear.mp hblk
  refine List.find?_eq_none.mp h blk ?_ ?_
  · rw [mem_range'_1]
    omega
  · simpa using hfree

end Room

theorem allocIn_eq_mark {groups : List ℕ} {blk : ℕ} (hs : allocIn fs s groups = some (blk, s')) :
    ∃ bg ∈ groups, findFree fs (s.blocks (bgBlockBitmap (readBgDesc fs s bg))) bg = some blk ∧
      s' = mark fs (bgBlockBitmap (readBgDesc fs s bg)) s bg
        (setBit (s.blocks (bgBlockBitmap (readBgDesc fs s bg))) (blk - bg * fs.blocksPerGroup))
        (bgFreeBlocksCount (readBgDesc fs s bg) - 1) := by
  induction groups with
  | nil => cases hs
  | cons bg rest ih =>
    have hrest (hs : allocIn fs s rest = some (blk, s')) := (ih hs).imp fun _ h =>
      And.imp_left (mem_cons_of_mem bg) h
    rw [allocIn] at hs
    dsimp only at hs
    split_ifs at hs with hcount
    · exact hrest hs
    · split at hs
      · exact hrest hs
      next blk' hfind =>
        cases hs
        exact ⟨bg, mem_cons_self, hfind, rfl⟩

theorem allocIn_isSome {groups : List ℕ} (hroom : ∃ g ∈ groups, room fs s g ≠ 0) :
    ∃ blk s', allocIn fs s groups = some (blk, s') := by
  induction groups with
  | nil => simp at hroom
  | cons bg rest ih =>
    rw [allocIn]
    dsimp only
    have hrest (hfull : room fs s bg = 0) : ∃ g ∈ rest, room fs s g ≠ 0 := by
      obtain ⟨g, hg, hne⟩ := hroom
      rcases List.mem_cons.mp hg with rfl | hg
      · exact absurd hfull hne
      · exact ⟨g, hg, hne⟩
    split_ifs with hcount
    · refine ih (hrest ?_)
      rw [room, hcount, Nat.zero_min]
    · split
      next hfind =>
        refine ih (hrest ?_)
        rw [room, clear_eq_empty hfind, Finset.card_empty, Nat.min_zero]
      next blk hfind => exact ⟨_, _, rfl⟩

theorem freeBlockChain_eq (b : ℕ) : freeBlockChain fs s b =
    let g := b / fs.blocksPerGroup
    let m := bgBlockBitmap (readBgDesc fs s g)
    if b ≠ 0 ∧ ¬fs.numGroups ≤ g ∧ bit (s.blocks m) (b % fs.blocksPerGroup) then
      mark fs m s g (clearBit (s.blocks m) (b % fs.blocksPerGroup))
        (bgFreeBlocksCount (readBgDesc fs s g) + 1)
    else s := by
  have hidx : b - b / fs.blocksPerGroup * fs.blocksPerGroup = b % fs.blocksPerGroup := by
    rw [Nat.mul_comm, mod_eq_sub]
  unfold freeBlockChain
  dsimp only
  rw [hidx, ite_and, ite_and, ite_not, ite_not]
  rfl

end Ext2
end Doppio
