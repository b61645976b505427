import Doppio.Library.Bytes
import Mathlib.Data.List.Range

/-! The disk of an ext2 file system (`kernel/vfs/ext2.c`): blocks, group descriptors and
bitmaps. Transfers and `kmalloc` succeed. -/
namespace Doppio
namespace Ext2
open Bytes

/-- `struct ext2_fs` -/
structure Fs where
  /-- `s_log_block_size` -/
  logBlockSize : ℕ
  blocksPerGroup : ℕ
  blocksCount : ℕ
  group_pos : 0 < blocksPerGroup

namespace Fs

variable (fs : Fs)

def blockSize : ℕ := 1024 * 2 ^ fs.logBlockSize

def descPerBlock : ℕ := fs.blockSize / 32

def bgDescStart : ℕ := if fs.blockSize = 1024 then 2 else 1

def numGroups : ℕ :=
  (fs.blocksCount + fs.blocksPerGroup - 1) % 2 ^ 32 / fs.blocksPerGroup

def descBlock (bg : ℕ) : ℕ := fs.bgDescStart + bg / fs.descPerBlock

def descOff (bg : ℕ) : ℕ := bg % fs.descPerBlock * 32

end Fs

structure Store where
  blocks : ℕ → Buf

def Store.writeBlock (s : Store) (block : ℕ) (buf : Buf) : Store :=
  ⟨Function.update s.blocks block buf⟩

section Descriptors

def bgBlockBitmap (bgd : Buf) : ℕ := word bgd 0
def bgFreeBlocksCount (bgd : Buf) : ℕ := le bgd 12 2
def setBgFreeBlocksCount (bgd : Buf) (n : ℕ) : Buf := putLe bgd 12 2 (n % 2 ^ 16)

/-- The bytes of `struct ext2_block_group_desc`. -/
def readBgDesc (fs : Fs) (s : Store) (bg : ℕ) : Buf := fun i =>
  s.blocks (fs.descBlock bg) (fs.descOff bg + i)

def writeBgDesc (fs : Fs) (s : Store) (bg : ℕ) (bgd : Buf) : Store :=
  s.writeBlock (fs.descBlock bg) (splice (s.blocks (fs.descBlock bg)) (fs.descOff bg) 32 bgd)

end Descriptors

section Bitmap

/-- The loop over a group: the first block that is not 0 and whose bit is clear. -/
def findFree (fs : Fs) (bitmap : Buf) (bg : ℕ) : Option ℕ :=
  let start := bg * fs.blocksPerGroup
  let stop := min ((start + fs.blocksPerGroup) % 2 ^ 32) fs.blocksCount
  (List.range' start (stop - start)).find? fun blk => blk ≠ 0 ∧ ¬bit bitmap (blk - start)

/-- The loop of `ext2_alloc_block` over the groups. -/
def allocIn (fs : Fs) (s : Store) : List ℕ → Option (ℕ × Store)
  | [] => none
  | bg :: rest =>
    let bgd := readBgDesc fs s bg
    if bgFreeBlocksCount bgd = 0 then allocIn fs s rest
    else
      let bitmap := s.blocks (bgBlockBitmap bgd)
      match findFree fs bitmap bg with
      | none => allocIn fs s rest
      | some blk =>
        let s := s.writeBlock (bgBlockBitmap bgd) (setBit bitmap (blk - bg * fs.blocksPerGroup))
        some (blk, writeBgDesc fs s bg (setBgFreeBlocksCount bgd (bgFreeBlocksCount bgd - 1)))

/-- `ext2_alloc_block`; `none` is `-ENOSPC`. -/
def allocBlock (fs : Fs) (s : Store) : Option (ℕ × Store) :=
  allocIn fs s (List.range fs.numGroups)

def freeBlockChain (fs : Fs) (s : Store) (block : ℕ) : Store :=
  if block = 0 then s
  else
    let bg := block / fs.blocksPerGroup
    if fs.numGroups ≤ bg then s
    else
      let bgd := readBgDesc fs s bg
      let bitmap := s.blocks (bgBlockBitmap bgd)
      let idx := block - bg * fs.blocksPerGroup
      if bit bitmap idx then
        writeBgDesc fs (s.writeBlock (bgBlockBitmap bgd) (clearBit bitmap idx)) bg
          (setBgFreeBlocksCount bgd (bgFreeBlocksCount bgd + 1))
      else s

end Bitmap
end Ext2
end Doppio
