import Doppio.Ext2.Bitmaps
import Doppio.Library.Run

/-! The counts of free blocks in the group descriptors against the bitmaps, over any allocations and
releases. -/
namespace Doppio
namespace Ext2
open Bytes Finset

namespace Fs

def groups (fs : Fs) : ℕ := (fs.blocksCount + fs.blocksPerGroup - 1) / fs.blocksPerGroup

def groupBlocks (fs : Fs) (g : ℕ) : Finset ℕ :=
  (Finset.range fs.blocksCount).filter fun b => b / fs.blocksPerGroup = g

variable {fs : Fs} {g b : ℕ}

theorem mem_groupBlocks : b ∈ fs.groupBlocks g ↔ b < fs.blocksCount ∧ b / fs.blocksPerGroup = g := by
  rw [groupBlocks, mem_filter, mem_range]

theorem numGroups_eq (hroom : fs.blocksCount + fs.blocksPerGroup ≤ 2 ^ 32) :
    fs.numGroups = fs.groups := by
  rw [numGroups, groups, Nat.mod_eq_of_lt (by omega)]

theorem div_lt_groups (hb : b < fs.blocksCount) : b / fs.blocksPerGroup < fs.groups := by
  have hpos := fs.group_pos
  rw [Nat.lt_iff_add_one_le, ← Nat.add_div_right b hpos]
  exact Nat.div_le_div_right (by omega)

end Fs

def clearBlocks (fs : Fs) (bitmap : Buf) (g : ℕ) : Finset ℕ :=
  (fs.groupBlocks g).filter fun b => bit bitmap (b % fs.blocksPerGroup) = false

/-- The bit of a block is set; the bitmaps are at `bitmapAt`. -/
def Marked (fs : Fs) (bitmapAt : ℕ → ℕ) (s : Store) (b : ℕ) : Prop :=
  bit (s.blocks (bitmapAt (b / fs.blocksPerGroup))) (b % fs.blocksPerGroup) = true

/-- The metadata are in the blocks of `M`, distinct and marked used; the descriptors count the clear
bits of their groups. -/
structure Tracked (fs : Fs) (bitmapAt : ℕ → ℕ) (M : ℕ → Prop) (s : Store) : Prop where
  fits : fs.blocksPerGroup ≤ 8 * fs.blockSize
  described : ∀ g < fs.groups, bgBlockBitmap (readBgDesc fs s g) = bitmapAt g
  distinct : ∀ g < fs.groups, ∀ h < fs.groups, bitmapAt g = bitmapAt h → g = h
  apart : ∀ g < fs.groups, ∀ h < fs.groups, bitmapAt g ≠ fs.descBlock h
  maps : ∀ g < fs.groups, M (bitmapAt g) ∧ M (fs.descBlock g)
  used : ∀ b < fs.blocksCount, M b → Marked fs bitmapAt s b
  counted : ∀ g < fs.groups, bgFreeBlocksCount (readBgDesc fs s g) =
    (clearBlocks fs (s.blocks (bitmapAt g)) g).card

inductive BlockCall where
  | alloc
  | free (b : ℕ)

def blockStep (fs : Fs) (s : Store) : BlockCall → Store
  | .alloc =>
    match allocBlock fs s with
    | some (_, s') => s'
    | none => s
  | .free b => freeBlockChain fs s b

/-- A block of the file system without metadata. -/
def DataBlock (fs : Fs) (M : ℕ → Prop) : BlockCall → Prop
  | .alloc => True
  | .free b => b < fs.blocksCount ∧ ¬M b

variable {fs : Fs} {bitmapAt : ℕ → ℕ} {M : ℕ → Prop} {s s' : Store} {bg idx b blk g count : ℕ}
  {bitmap : Buf}

section Clear

theorem mem_clearBlocks : b ∈ clearBlocks fs bitmap g ↔
    (b < fs.blocksCount ∧ b / fs.blocksPerGroup = g) ∧
      bit bitmap (b % fs.blocksPerGroup) = false := by
  rw [clearBlocks, mem_filter, Fs.mem_groupBlocks]

theorem eq_of_mod_eq {c : ℕ} (hdiv : b / fs.blocksPerGroup = c / fs.blocksPerGroup)
    (hmod : b % fs.blocksPerGroup = c % fs.blocksPerGroup) : b = c := by
  rw [← Nat.div_add_mod b fs.blocksPerGroup, ← Nat.div_add_mod c fs.blocksPerGroup, hdiv, hmod]

theorem clearBlocks_setBit (hb : b ∈ clearBlocks fs bitmap g) :
    clearBlocks fs (setBit bitmap (b % fs.blocksPerGroup)) g = (clearBlocks fs bitmap g).erase b := by
  obtain ⟨⟨-, hg⟩, -⟩ := mem_clearBlocks.mp hb
  ext c
  rw [mem_erase, mem_clearBlocks, mem_clearBlocks, bit_setBit]
  simp only [Bool.or_eq_false_iff, decide_eq_false_iff_not]
  constructor
  · rintro ⟨hc, hbit, hne⟩
    exact ⟨fun he => hne (by rw [he]), hc, hbit⟩
  · rintro ⟨hne, hc, hbit⟩
    exact ⟨hc, hbit, fun he => hne (eq_of_mod_eq (hc.2.trans hg.symm) he)⟩

theorem clearBlocks_clearBit (bitmap : Buf) (hb : b < fs.blocksCount) (hg : b / fs.blocksPerGroup = g) :
    clearBlocks fs (clearBit bitmap (b % fs.blocksPerGroup)) g =
      insert b (clearBlocks fs bitmap g) := by
  ext c
  rw [mem_insert, mem_clearBlocks, mem_clearBlocks, bit_clearBit]
  simp only [Bool.and_eq_false_iff, Bool.not_eq_false', decide_eq_true_eq]
  constructor
  · rintro ⟨hc, hbit | hmod⟩
    · exact .inr ⟨hc, hbit⟩
    · exact .inl (eq_of_mod_eq (hc.2.trans hg.symm) hmod)
  · rintro (rfl | ⟨hc, hbit⟩)
    · exact ⟨⟨hb, hg⟩, .inr rfl⟩
    · exact ⟨hc, .inl hbit⟩

theorem mem_clear_iff (hroom : fs.blocksCount + fs.blocksPerGroup ≤ 2 ^ 32) :
    b ∈ clear fs bitmap g ↔ b ≠ 0 ∧ b ∈ clearBlocks fs bitmap g := by
  have hpos := fs.group_pos
  have hgroup : g * fs.blocksPerGroup ≤ b ∧ b < g * fs.blocksPerGroup + fs.blocksPerGroup ↔
      b / fs.blocksPerGroup = g := by
    rw [Nat.div_eq_iff hpos]
    omega
  rw [mem_clear, mem_clearBlocks, ← hgroup]
  constructor
  · rintro ⟨⟨hle, hlt⟩, hne, hbit⟩
    have hin : g * fs.blocksPerGroup ≤ b ∧ b < g * fs.blocksPerGroup + fs.blocksPerGroup := by omega
    rw [← hgroup.mp hin, Nat.mul_comm, ← Nat.mod_eq_sub] at hbit
    exact ⟨hne, ⟨by omega, hin⟩, hbit⟩
  · rintro ⟨hne, ⟨hlt, hin⟩, hbit⟩
    refine ⟨by omega, hne, ?_⟩
    rw [← hgroup.mp hin, Nat.mul_comm, ← Nat.mod_eq_sub]
    exact hbit

end Clear

section Steps

variable (hroom : fs.blocksCount + fs.blocksPerGroup ≤ 2 ^ 32)
include hroom

section
variable (h : Tracked fs bitmapAt M s)
include h

omit hroom in
theorem Tracked.mark (bitmap : Buf) (count : ℕ)
    (hb : b < fs.blocksCount) (hg : b / fs.blocksPerGroup = bg)
    (hbits : ∀ j, j ≠ b % fs.blocksPerGroup → bit bitmap j = bit (s.blocks (bitmapAt bg)) j)
    (hM : M b → bit bitmap (b % fs.blocksPerGroup) = true)
    (hcount : count = (clearBlocks fs bitmap bg).card) (hlt : count < 2 ^ 16) :
    Tracked fs bitmapAt M (Ext2.mark fs (bitmapAt bg) s bg bitmap count) := by
  have hbg : bg < fs.groups := hg ▸ Fs.div_lt_groups hb
  have hm := h.apart bg hbg bg hbg
  have hother : ∀ g < fs.groups, g ≠ bg →
      (Ext2.mark fs (bitmapAt bg) s bg bitmap count).blocks (bitmapAt g) = s.blocks (bitmapAt g) :=
    fun g hg hne => mark_blocks (fun he => hne (h.distinct g hg bg hbg he)) (h.apart g hg bg hbg)
  refine { h with described := ?_, used := ?_, counted := ?_ }
  · intro g hg
    exact (le_mark_desc hm (h.apart bg hbg g hg) (by decide)).trans (h.described g hg)
  · intro c hc hMc
    have hold := h.used c hc hMc
    unfold Marked at *
    by_cases hcg : c / fs.blocksPerGroup = bg
    · rw [hcg, mark_bitmap hm]
      by_cases hmod : c % fs.blocksPerGroup = b % fs.blocksPerGroup
      · rw [hmod]
        exact hM (eq_of_mod_eq (hcg.trans hg.symm) hmod ▸ hMc)
      · rw [hbits _ hmod, ← hcg]
        exact hold
    · rw [hother _ (Fs.div_lt_groups hc) hcg]
      exact hold
  · intro g hgroup
    by_cases hgb : g = bg
    · rw [hgb, count_mark_self hm, mark_bitmap hm, Nat.mod_eq_of_lt hlt, hcount]
    · rw [count_mark_of_ne hm (h.apart bg hbg g hgroup) hgb, hother g hgroup hgb]
      exact h.counted g hgroup

theorem Tracked.alloc (hs : allocBlock fs s = some (blk, s')) :
    Tracked fs bitmapAt M s' ∧ ¬Marked fs bitmapAt s blk := by
  obtain ⟨bg, hbg, hfind, rfl⟩ := allocIn_eq_mark hs
  rw [List.mem_range, Fs.numGroups_eq hroom] at hbg
  rw [h.described bg hbg] at hfind ⊢
  have hmem : blk ∈ clearBlocks fs (s.blocks (bitmapAt bg)) bg :=
    ((mem_clear_iff hroom).mp (findFree_mem_clear hfind)).2
  obtain ⟨⟨hlt, hg⟩, hbit⟩ := mem_clearBlocks.mp hmem
  have hidx : blk - bg * fs.blocksPerGroup = blk % fs.blocksPerGroup := by
    rw [← hg, Nat.mul_comm, Nat.mod_eq_sub]
  have hold := h.counted bg hbg
  have hsize : bgFreeBlocksCount (readBgDesc fs s bg) < 256 ^ 2 := le_lt _ _ _
  constructor
  · have hcard : bgFreeBlocksCount (readBgDesc fs s bg) - 1 = (clearBlocks fs
        (setBit (s.blocks (bitmapAt bg)) (blk % fs.blocksPerGroup)) bg).card := by
      rw [clearBlocks_setBit hmem, card_erase_of_mem hmem, hold]
    rw [hidx]
    exact h.mark _ _ hlt hg (fun j hj => by simp [bit_setBit, hj]) (fun _ => by simp [bit_setBit])
      hcard (by omega)
  · rw [Marked, hg, hbit]
    exact Bool.false_ne_true

theorem Tracked.full (hs : allocBlock fs s = none)
    (hb : b < fs.blocksCount) (hne : b ≠ 0) : Marked fs bitmapAt s b := by
  by_contra hfree
  have hg := Fs.div_lt_groups hb
  have hmem : b ∈ clearBlocks fs (s.blocks (bitmapAt (b / fs.blocksPerGroup)))
      (b / fs.blocksPerGroup) := by
    rw [mem_clearBlocks]
    exact ⟨⟨hb, rfl⟩, Bool.not_eq_true _ ▸ hfree⟩
  have hclear := (mem_clear_iff hroom).mpr ⟨hne, hmem⟩
  have hroomPos : room fs s (b / fs.blocksPerGroup) ≠ 0 := by
    have hcard := card_pos.mpr ⟨b, hmem⟩
    have hcard' := card_pos.mpr ⟨b, hclear⟩
    unfold room
    dsimp only
    rw [h.described _ hg, h.counted _ hg]
    omega
  have hmemRange : b / fs.blocksPerGroup ∈ List.range fs.numGroups := by
    rw [List.mem_range, Fs.numGroups_eq hroom]
    exact hg
  obtain ⟨blk, s', hsome⟩ := allocIn_isSome ⟨_, hmemRange, hroomPos⟩
  rw [allocBlock, hsome] at hs
  cases hs

omit hroom in
theorem Tracked.free [DecidablePred M]
    (hdata : ∀ g, ((fs.groupBlocks g).filter fun b => ¬M b).card < 2 ^ 16)
    (hb : b < fs.blocksCount) (hM : ¬M b) : Tracked fs bitmapAt M (freeBlockChain fs s b) := by
  rw [freeBlockChain_eq]
  dsimp only
  rw [h.described _ (Fs.div_lt_groups hb)]
  split_ifs with hfree
  · obtain ⟨-, -, hbit⟩ := hfree
    generalize hg : b / fs.blocksPerGroup = bg at hbit ⊢
    have hold := h.counted bg (hg ▸ Fs.div_lt_groups hb)
    have hnotin : b ∉ clearBlocks fs (s.blocks (bitmapAt bg)) bg := by
      rw [mem_clearBlocks, hbit]
      simp
    have hcard : bgFreeBlocksCount (readBgDesc fs s bg) + 1 = (clearBlocks fs
        (clearBit (s.blocks (bitmapAt bg)) (b % fs.blocksPerGroup)) bg).card := by
      rw [clearBlocks_clearBit _ hb hg, card_insert_of_notMem hnotin, hold]
    have hsub : insert b (clearBlocks fs (s.blocks (bitmapAt bg)) bg) ⊆
        (fs.groupBlocks bg).filter fun b => ¬M b := by
      intro c hc
      rw [mem_filter, Fs.mem_groupBlocks]
      rcases mem_insert.mp hc with rfl | hc
      · exact ⟨⟨hb, hg⟩, hM⟩
      · obtain ⟨hcg, hbitc⟩ := mem_clearBlocks.mp hc
        refine ⟨hcg, fun hMc => ?_⟩
        have hused := h.used c hcg.1 hMc
        rw [Marked, hcg.2, hbitc] at hused
        cases hused
    have hlt : bgFreeBlocksCount (readBgDesc fs s bg) + 1 < 2 ^ 16 := by
      rw [hcard, clearBlocks_clearBit _ hb hg]
      exact (card_le_card hsub).trans_lt (hdata bg)
    exact h.mark _ _ hb hg (fun j hj => by simp [bit_clearBit, hj]) (fun hMb => absurd hMb hM) hcard
      hlt
  · exact h

theorem Tracked.count_free (hb : b < fs.blocksCount) (hzero : b ≠ 0)
    (hmarked : Marked fs bitmapAt s b) :
    bgFreeBlocksCount (readBgDesc fs (freeBlockChain fs s b) (b / fs.blocksPerGroup)) =
      (bgFreeBlocksCount (readBgDesc fs s (b / fs.blocksPerGroup)) + 1) % 2 ^ 16 := by
  have hbg := Fs.div_lt_groups hb
  rw [freeBlockChain_eq]
  dsimp only
  rw [h.described _ hbg, if_pos ⟨hzero, by rwa [Fs.numGroups_eq hroom, not_le], hmarked⟩]
  exact count_mark_self (h.apart _ hbg _ hbg)

end

end Steps

/-- In a file system that the arithmetic can hold, the counts agree with the bitmaps after any
allocations and releases, an allocation never returns a marked block, and none is refused while a
block other than 0 is free. -/
theorem reaches_tracked [DecidablePred M] {s₀ : Store}
    (hroom : fs.blocksCount + fs.blocksPerGroup ≤ 2 ^ 32)
    (hdata : ∀ g, ((fs.groupBlocks g).filter fun b => ¬M b).card < 2 ^ 16)
    (h₀ : Tracked fs bitmapAt M s₀)
    (h : Run.Reaches (fun s call s' => blockStep fs s call = s') (fun _ => DataBlock fs M) s₀ s) :
    Tracked fs bitmapAt M s ∧
      (∀ blk s', allocBlock fs s = some (blk, s') → ¬Marked fs bitmapAt s blk) ∧
      (allocBlock fs s = none → ∀ b < fs.blocksCount, b ≠ 0 → Marked fs bitmapAt s b) := by
  have hs : Tracked fs bitmapAt M s := by
    apply h.invariant (I := Tracked fs bitmapAt M) _ h₀
    rintro s call s' hs hok rfl
    cases call with
    | alloc =>
      rw [blockStep]
      split
      next blk s' halloc => exact (hs.alloc hroom halloc).1
      next => exact hs
    | free b => exact hs.free hdata hok.1 hok.2
  exact ⟨hs, fun blk s' halloc => (hs.alloc hroom halloc).2,
    fun hnone b hb hne => hs.full hroom hnone hb hne⟩

section Samples

/-- A disk with the bitmap of group `g` in block `base + g`, and descriptors with these blocks and
the counts. -/
def sample (fs : Fs) (base : ℕ) (bitmap : ℕ → Buf) (count : ℕ → ℕ) : Store where
  blocks b :=
    if base ≤ b then bitmap (b - base)
    else fun i =>
      let g := (b - fs.bgDescStart) * fs.descPerBlock + i / 32
      BitVec.ofNat 8 ((base + g + 2 ^ 96 * count g) / 256 ^ (i % 32))

variable {base : ℕ} {maps : ℕ → Buf} {counts : ℕ → ℕ}

section
variable (hdesc : fs.descBlock g < base)
include hdesc

theorem readBgDesc_sample {i : ℕ} (hi : i < 32) :
    readBgDesc fs (sample fs base maps counts) g i =
      BitVec.ofNat 8 ((base + g + 2 ^ 96 * counts g) / 256 ^ i) := by
  have hg : (fs.descBlock g - fs.bgDescStart) * fs.descPerBlock + g % fs.descPerBlock = g := by
    rw [Fs.descBlock, Nat.add_sub_cancel_left, Nat.mul_comm, Nat.div_add_mod]
  have hdiv : (fs.descOff g + i) / 32 = g % fs.descPerBlock := by
    unfold Fs.descOff
    omega
  have hmod : (fs.descOff g + i) % 32 = i := by
    unfold Fs.descOff
    omega
  unfold readBgDesc sample
  dsimp only
  rw [if_neg (Nat.not_le_of_lt hdesc), hdiv, hmod, hg]

theorem bgBlockBitmap_sample (hlt : base + g < 2 ^ 32) :
    bgBlockBitmap (readBgDesc fs (sample fs base maps counts) g) = base + g := by
  simp only [bgBlockBitmap, word, le, readBgDesc_sample hdesc, Nat.reduceLT, Nat.reduceMul,
    Nat.reduceAdd, BitVec.toNat_ofNat]
  omega

theorem bgFreeBlocksCount_sample (hlt : base + g < 2 ^ 32) (hcount : counts g < 2 ^ 16) :
    bgFreeBlocksCount (readBgDesc fs (sample fs base maps counts) g) = counts g := by
  simp only [bgFreeBlocksCount, le, readBgDesc_sample hdesc, Nat.reduceLT, Nat.reduceAdd,
    BitVec.toNat_ofNat]
  omega

end

theorem blocks_sample (g : ℕ) : (sample fs base maps counts).blocks (base + g) = maps g := by
  unfold sample
  dsimp only
  rw [if_pos (Nat.le_add_right base g), Nat.add_sub_cancel_left]

theorem tracked_sample (hfits : fs.blocksPerGroup ≤ 8 * fs.blockSize)
    (hdesc : ∀ g < fs.groups, fs.descBlock g < base) (hbase : base + fs.groups ≤ 2 ^ 32)
    (hcount : ∀ g < fs.groups, counts g < 2 ^ 16 ∧ counts g = (clearBlocks fs (maps g) g).card)
    (hmaps : ∀ g < fs.groups, M (base + g) ∧ M (fs.descBlock g))
    (hused : ∀ b < fs.blocksCount, M b →
      bit (maps (b / fs.blocksPerGroup)) (b % fs.blocksPerGroup) = true) :
    Tracked fs (base + ·) M (sample fs base maps counts) where
  fits := hfits
  described g hg := bgBlockBitmap_sample (hdesc g hg) (by omega)
  distinct g hg k hk heq := Nat.add_left_cancel heq
  apart g hg k hk heq := by
    have := hdesc k hk
    omega
  maps := hmaps
  used b hb hM := by
    rw [Marked, blocks_sample]
    exact hused b hb hM
  counted g hg := by
    rw [bgFreeBlocksCount_sample (hdesc g hg) (by omega) (hcount g hg).1, blocks_sample]
    exact (hcount g hg).2

/-- One group of eight blocks, descriptors in block 2, bitmap in block 5. -/
def smallFs : Fs := ⟨0, 8, 8, by decide⟩

theorem reaches_tracked_small : ∃ s, Run.Reaches (fun s call s' => blockStep smallFs s call = s')
      (fun _ => DataBlock smallFs fun b => b = 2 ∨ b = 5)
      (sample smallFs 5 (fun _ _ => 0x24) fun _ => 6) s ∧
    Tracked smallFs (5 + ·) (fun b => b = 2 ∨ b = 5) s ∧
    bgFreeBlocksCount (readBgDesc smallFs s 0) = 5 := by
  have hstart : Tracked smallFs (5 + ·) (fun b => b = 2 ∨ b = 5)
      (sample smallFs 5 (fun _ _ => 0x24) fun _ => 6) := by
    apply tracked_sample <;> decide +kernel
  have hrun : Run.Reaches (fun s call s' => blockStep smallFs s call = s')
      (fun _ => DataBlock smallFs fun b => b = 2 ∨ b = 5)
      (sample smallFs 5 (fun _ _ => 0x24) fun _ => 6) _ := .single .alloc trivial rfl
  have hdata : ∀ g, ((smallFs.groupBlocks g).filter fun b => ¬(b = 2 ∨ b = 5)).card < 2 ^ 16 := by
    intro g
    have hle := card_filter_le (smallFs.groupBlocks g) fun b => ¬(b = 2 ∨ b = 5)
    have hle' : (smallFs.groupBlocks g).card ≤ (range smallFs.blocksCount).card :=
      card_filter_le _ _
    change _ ≤ 8 at hle'
    omega
  exact ⟨_, hrun, (reaches_tracked (by decide) hdata hstart hrun).1, by decide +kernel⟩

def fullMap : Buf := fun _ => 255

theorem bit_fullMap (j : ℕ) : bit fullMap j = true := by
  have hlt : j % 8 < 8 := Nat.mod_lt _ (by decide)
  unfold bit fullMap
  interval_cases j % 8 <;> rfl

theorem clearBlocks_fullMap (fs : Fs) (g : ℕ) : clearBlocks fs fullMap g = ∅ := by
  simp [clearBlocks, bit_fullMap]

/-- 4 TiB in blocks of 1 KiB: 524288 groups, where the sum wraps. -/
def hugeFs : Fs := ⟨0, 8192, 2 ^ 32 - 1, by decide⟩

/-- Only the last block but one is free. -/
def hugeMaps (g : ℕ) : Buf := if g = 524287 then clearBit fullMap 8190 else fullMap

theorem clearBlocks_hugeMaps (g : ℕ) :
    (clearBlocks hugeFs (hugeMaps g) g).card = if g = 524287 then 1 else 0 := by
  unfold hugeMaps
  split_ifs with hlast
  · have hgroup : (2 ^ 32 - 2) / hugeFs.blocksPerGroup = g := by
      rw [hlast]
      decide
    have hidx : (2 ^ 32 - 2) % hugeFs.blocksPerGroup = 8190 := by decide
    have hone := clearBlocks_clearBit fullMap (by decide) hgroup
    rw [hidx, clearBlocks_fullMap] at hone
    rw [hone]
    rfl
  · rw [clearBlocks_fullMap]
    rfl

theorem hugeFs_tracked : Tracked hugeFs (20000 + ·) (· ≠ 2 ^ 32 - 2)
    (sample hugeFs 20000 hugeMaps fun g => if g = 524287 then 1 else 0) := by
  have hgroups : hugeFs.groups = 524288 := by decide
  have hblock : ∀ g, hugeFs.descBlock g = 2 + g / 32 := fun g => rfl
  apply tracked_sample
  · decide
  · intro g hg
    rw [hblock]
    omega
  · decide
  · intro g _
    rw [clearBlocks_hugeMaps]
    split_ifs <;> simp
  · intro g hg
    rw [hblock]
    omega
  · intro b hb hne
    change bit (hugeMaps (b / 8192)) (b % 8192) = true
    unfold hugeMaps
    split_ifs
    · have hmod : b % 8192 ≠ 8190 := by omega
      simp [bit_clearBit, bit_fullMap, hmod]
    · exact bit_fullMap _

/-- Two groups of 65536 blocks of 8 KiB, all metadata in the first. -/
def wideFs : Fs := ⟨3, 65536, 131072, by decide⟩

/-- One block of the second group is used. -/
def wideMaps (g : ℕ) : Buf := if g = 0 then fullMap else setBit (fun _ => 0) 7

theorem bit_zeroMap (j : ℕ) : bit (fun _ => 0) j = false := by
  simp [bit]

theorem clearBlocks_wideMaps : (clearBlocks wideFs (wideMaps 1) 1).card = 65535 := by
  have hall : clearBlocks wideFs (fun _ => 0) 1 = Ico 65536 131072 := by
    ext b
    rw [mem_clearBlocks, bit_zeroMap, mem_Ico]
    change (b < 131072 ∧ b / 65536 = 1) ∧ false = false ↔ _
    simp only [and_true]
    omega
  have hmem : 65543 ∈ clearBlocks wideFs (fun _ => 0) 1 := by
    rw [hall, mem_Ico]
    omega
  have herase := clearBlocks_setBit hmem
  rw [hall] at herase hmem
  have hcard := congrArg card herase
  rw [card_erase_of_mem hmem, Nat.card_Ico] at hcard
  exact hcard

theorem wideFs_tracked : Tracked wideFs (10 + ·) (· < 65536)
    (sample wideFs 10 wideMaps fun g => if g = 0 then 0 else 65535) := by
  have hgroups : wideFs.groups = 2 := by decide
  apply tracked_sample
  · decide
  · intro g hg
    change 1 + g / 256 < 10
    omega
  · decide
  · intro g hg
    rw [hgroups] at hg
    interval_cases g
    · simp [wideMaps, clearBlocks_fullMap]
    · rw [clearBlocks_wideMaps]
      decide
  · intro g hg
    change 10 + g < 65536 ∧ 1 + g / 256 < 65536
    omega
  · intro b _ hb
    have hzero : b / wideFs.blocksPerGroup = 0 := Nat.div_eq_of_lt hb
    rw [hzero]
    exact bit_fullMap _

/-- With 4 TiB in blocks of 1 KiB no group is searched although a block is free; with 65536 blocks
in a group the count of the last release wraps to 0. -/
theorem counts_too_narrow :
    (Tracked hugeFs (20000 + ·) (· ≠ 2 ^ 32 - 2)
        (sample hugeFs 20000 hugeMaps fun g => if g = 524287 then 1 else 0) ∧
      ¬Marked hugeFs (20000 + ·)
        (sample hugeFs 20000 hugeMaps fun g => if g = 524287 then 1 else 0) (2 ^ 32 - 2) ∧
      allocBlock hugeFs (sample hugeFs 20000 hugeMaps fun g => if g = 524287 then 1 else 0) =
        none) ∧ Tracked wideFs (10 + ·) (· < 65536)
        (sample wideFs 10 wideMaps fun g => if g = 0 then 0 else 65535) ∧
      DataBlock wideFs (· < 65536) (.free 65543) ∧
      ¬Tracked wideFs (10 + ·) (· < 65536) (freeBlockChain wideFs
        (sample wideFs 10 wideMaps fun g => if g = 0 then 0 else 65535) 65543) := by
  refine ⟨⟨hugeFs_tracked, ?_, rfl⟩, wideFs_tracked, ⟨by decide, by decide⟩, fun h => ?_⟩
  · rw [Marked]
    decide
  · have hroom : wideFs.blocksCount + wideFs.blocksPerGroup ≤ 2 ^ 32 := by decide
    have hmarked : Marked wideFs (10 + ·)
        (sample wideFs 10 wideMaps fun g => if g = 0 then 0 else 65535) 65543 := by
      rw [Marked]
      decide
    have hfree : ¬Marked wideFs (10 + ·)
        (sample wideFs 10 wideMaps fun g => if g = 0 then 0 else 65535) 65537 := by
      rw [Marked]
      decide
    have hzero := wideFs_tracked.count_free hroom (by decide) (by decide) hmarked
    have hgroup : 65543 / wideFs.blocksPerGroup = 1 := by decide
    rw [hgroup, wideFs_tracked.counted 1 (by decide), blocks_sample, clearBlocks_wideMaps] at hzero
    have hcard := h.counted 1 (by decide)
    rw [hzero, show (65535 + 1) % 2 ^ 16 = 0 by decide, eq_comm, card_eq_zero,
      eq_empty_iff_forall_notMem] at hcard
    apply hcard 65537
    rw [mem_clearBlocks]
    exact ⟨⟨by decide, by decide⟩, Bool.not_eq_true _ ▸ hfree⟩

end Samples
end Ext2
end Doppio
