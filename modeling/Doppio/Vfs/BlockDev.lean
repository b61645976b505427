import Doppio.Library.Run
import Doppio.Vfs.BlkCache

/-! The block device nodes of `kernel/vfs/blockdev.c`, which go past the sector cache: a read takes
what is on the disk, a write goes to the disk and drops the sector from the cache. Transfers
succeed. -/
namespace Doppio
open Function
open List

structure BlkDev where
  devId : ℤ
  sectorCount : UInt64

namespace BlkDev

def sectorStart (off : UInt64) : ℕ := off.toNat / 512

/-- `sector_end` or the end of the device. -/
def sectorStop (blk : BlkDev) (count off : UInt64) : ℕ :=
  min ((off + count + 511).toNat / 512) blk.sectorCount.toNat

def chunkOff (off : UInt64) (sec : ℕ) : ℕ := if sec = sectorStart off then off.toNat % 512 else 0

def chunkLen (count off : UInt64) (sec done : ℕ) : ℕ :=
  min (512 - chunkOff off sec) (count.toNat - done)

def transferLen (blk : BlkDev) (count off : UInt64) : ℕ :=
  min count.toNat (512 * blk.sectorStop count off - off.toNat)

end BlkDev

namespace BlkCache

open BlkDev

/-- A dirty slot stays dirty. -/
def blkCacheInvalidate (s : BlkCache) (devId : ℤ) (sector : UInt64) : BlkCache :=
  match s.blkCacheLookup devId sector with
  | some idx => s.setSlot idx { s.slot idx with valid := false }
  | none => s

/-- The loop over `n` sectors from `sec` on; `buf`: copied so far. -/
def readLoop (s : BlkCache) (blk : BlkDev) (count off : UInt64) : ℕ → ℕ → List UInt8 → List UInt8
  | 0, _, buf => buf
  | n + 1, sec, buf =>
    let tmp := s.ahciBread blk.devId (.ofNat sec)
    let chunk := ((List.ofFn tmp).drop (chunkOff off sec)).take (chunkLen count off sec buf.length)
    readLoop s blk count off n (sec + 1) (buf ++ chunk)

/-- The bytes copied, or `-ENXIO`. -/
def blockdevRead (s : BlkCache) (blk : Option BlkDev) (count off : UInt64) :
    Except ℤ (List UInt8) :=
  match blk with
  | none => .error (-6)
  | some blk =>
    if count = 0 then .ok []
    else .ok (s.readLoop blk count off (blk.sectorStop count off - sectorStart off)
      (sectorStart off) [])

def patchSector (tmp : SectorData) (buf : ℕ → UInt8) (done chunkOff chunkLen : ℕ) : SectorData :=
  fun j => if chunkOff ≤ j ∧ j < chunkOff + chunkLen then buf (done + (j - chunkOff)) else tmp j

/-- What one turn of `blockdev_write` puts on the disk. -/
def writeChunk (s : BlkCache) (blk : BlkDev) (buf : ℕ → UInt8) (count off : UInt64)
    (sec done : ℕ) : SectorData :=
  let chunkOff := chunkOff off sec
  let chunkLen := chunkLen count off sec done
  if chunkOff = 0 ∧ chunkLen = 512 then fun j => buf (done + j)
  else patchSector (s.ahciBread blk.devId (.ofNat sec)) buf done chunkOff chunkLen

/-- `done`: written so far. -/
def writeLoop (blk : BlkDev) (buf : ℕ → UInt8) (count off : UInt64) :
    ℕ → ℕ → ℕ → BlkCache → BlkCache × ℕ
  | 0, _, done, s => (s, done)
  | n + 1, sec, done, s =>
    let data := s.writeChunk blk buf count off sec done
    let s := (s.ahciBwrite blk.devId (.ofNat sec) data).blkCacheInvalidate blk.devId (.ofNat sec)
    writeLoop blk buf count off n (sec + 1) (done + chunkLen count off sec done) s

/-- The number of bytes, or `-ENXIO`. -/
def blockdevWrite (s : BlkCache) (blk : Option BlkDev) (buf : ℕ → UInt8) (count off : UInt64) :
    BlkCache × ℤ :=
  match blk with
  | none => (s, -6)
  | some blk =>
    if count = 0 then (s, 0)
    else
      let (s, done) := writeLoop blk buf count off (blk.sectorStop count off - sectorStart off)
        (sectorStart off) 0 s
      (s, done)

end BlkCache

inductive DiskCall where
  | cached (call : BlkCall)
  | blockdevRead (blk : Option BlkDev) (count off : UInt64)
  | blockdevWrite (blk : Option BlkDev) (buf : ℕ → UInt8) (count off : UInt64)

/-- `len` bytes of a device replaced from `off` on. -/
def patchBytes (m : ℤ × UInt64 → SectorData) (devId : ℤ) (off len : ℕ) (buf : ℕ → UInt8) :
    ℤ × UInt64 → SectorData :=
  fun k j => if k.1 = devId ∧ off ≤ 512 * k.2.toNat + j ∧ 512 * k.2.toNat + j < off + len then
    buf (512 * k.2.toNat + j - off) else m k j

def byteAt (m : ℤ × UInt64 → SectorData) (devId : ℤ) (p : ℕ) : UInt8 :=
  m (devId, .ofNat (p / 512)) ⟨p % 512, Nat.mod_lt p (by decide)⟩

/-- What a read is to return. -/
def BlkDev.bytes (blk : BlkDev) (m : ℤ × UInt64 → SectorData) (count off : UInt64) : List UInt8 :=
  (List.range (blk.transferLen count off)).map fun j => byteAt m blk.devId (off.toNat + j)

namespace DiskCall

/-- What a call does to the disks as callers see them. -/
def effect (m : ℤ × UInt64 → SectorData) : DiskCall → ℤ × UInt64 → SectorData
  | cached call => call.effect m
  | blockdevRead _ _ _ => m
  | blockdevWrite none _ _ _ => m
  | blockdevWrite (some blk) buf count off =>
    patchBytes m blk.devId off.toNat (blk.transferLen count off) buf

end DiskCall

namespace BlkCache

open BlkDev

def diskStep (s : BlkCache) : DiskCall → BlkCache
  | .cached call => s.step call
  | .blockdevRead _ _ _ => s
  | .blockdevWrite blk buf count off => (s.blockdevWrite blk buf count off).1

/-- No dirty slot for a sector of the device in `[start, stop)`. -/
def CleanFrom (s : BlkCache) (devId : ℤ) (start stop : ℕ) : Prop :=
  ∀ i, (s.slot i).dirty = true → (s.slot i).devId = devId →
    ¬ (start ≤ (s.slot i).sector.toNat ∧ (s.slot i).sector.toNat < stop)

/-- No dirty data for the sectors of a transfer past the cache. -/
def Settled (s : BlkCache) : DiskCall → Prop
  | .cached _ => True
  | .blockdevRead none _ _ => True
  | .blockdevWrite none _ _ _ => True
  | .blockdevRead (some blk) count off =>
    count ≠ 0 → s.CleanFrom blk.devId (sectorStart off) (blk.sectorStop count off)
  | .blockdevWrite (some blk) _ count off =>
    count ≠ 0 → s.CleanFrom blk.devId (sectorStart off) (blk.sectorStop count off)

open WriteBack

variable {s : BlkCache} {m : ℤ × UInt64 → SectorData} {blk : BlkDev} {devId : ℤ} {sector : UInt64}
  {count off : UInt64} {buf : ℕ → UInt8} {sec done start stop n : ℕ}

theorem Shows.disk_of_cleanFrom (h : s.Shows m []) (hclean : s.CleanFrom devId start stop)
    (hstart : start ≤ sector.toNat) (hstop : sector.toNat < stop) :
    s.disk (devId, sector) = m (devId, sector) := by
  by_cases hcached : ∃ i, (s.line i).Caches (devId, sector)
  · obtain ⟨i, hi⟩ := hcached
    apply h.disk_of_clean _ hi
    rw [← Bool.not_eq_true]
    intro hd
    obtain ⟨hdev, hsec⟩ := Prod.mk.inj hi.2
    apply hclean i hd hdev
    rw [hsec]
    exact ⟨hstart, hstop⟩
  · exact h.absent _ (not_exists.mp hcached)

theorem slot_blkCacheInvalidate (s : BlkCache) (devId : ℤ) (sector : UInt64) (i : Fin 256) :
    ∃ v, (s.blkCacheInvalidate devId sector).slot i = { s.slot i with valid := v } := by
  unfold blkCacheInvalidate
  cases s.blkCacheLookup devId sector with
  | none => exact ⟨_, rfl⟩
  | some idx =>
    by_cases hi : i = idx
    · subst hi
      exact ⟨false, slot_setSlot_self⟩
    · exact ⟨_, slot_setSlot_of_ne hi⟩

theorem CleanFrom.invalidate (h : s.CleanFrom devId start stop) (d : ℤ) (sector : UInt64)
    (data : SectorData) :
    ((s.ahciBwrite d sector data).blkCacheInvalidate d sector).CleanFrom devId start stop := by
  intro i
  obtain ⟨v, hv⟩ := slot_blkCacheInvalidate (s.ahciBwrite d sector data) d sector i
  rw [hv]
  exact h i

theorem Shows.writeThrough (h : s.Shows m []) (hclean : s.CleanFrom devId start stop)
    (hstart : start ≤ sector.toNat) (hstop : sector.toNat < stop) (data : SectorData) :
    ((s.ahciBwrite devId sector data).blkCacheInvalidate devId sector).Shows
      (update m (devId, sector) data) [] := by
  have hlookup : (s.ahciBwrite devId sector data).blkCacheLookup devId sector =
      s.blkCacheLookup devId sector := rfl
  unfold blkCacheInvalidate
  rw [hlookup]
  cases hl : s.blkCacheLookup devId sector with
  | none => exact Coherent.overwrite h (not_caches_of_lookup_eq_none hl) data
  | some idx =>
    have hidx := caches_of_lookup_eq_some hl
    have hdirty : (s.slot idx).dirty = false := by
      rw [← Bool.not_eq_true]
      intro hd
      obtain ⟨hdev, hsec⟩ := Prod.mk.inj hidx.2
      apply hclean idx hd hdev
      rw [hsec]
      exact ⟨hstart, hstop⟩
    have hgone : (s.setSlot idx { s.slot idx with valid := false }).Shows m [] := by
      rw [Shows, line_setSlot]
      apply Coherent.invalidate h rfl hdirty
      intro k hk
      exact h.disk_of_clean k hk hdirty
    apply Coherent.overwrite hgone
    intro j hj
    rw [line_setSlot] at hj
    by_cases hji : j = idx
    · rw [hji, update_self] at hj
      cases hj.1
    · rw [update_of_ne hji] at hj
      exact hji (h.unique j idx _ hj hidx)

/-- The bytes moved up to the sector `sec`. -/
def doneAt (count off : UInt64) (sec : ℕ) : ℕ := min count.toNat (512 * sec - off.toNat)

@[simp] theorem doneAt_sectorStart (count off : UInt64) : doneAt count off (sectorStart off) = 0 := by
  unfold doneAt sectorStart
  omega

theorem doneAt_succ (h : sectorStart off ≤ sec) :
    doneAt count off sec + chunkLen count off sec (doneAt count off sec) =
      doneAt count off (sec + 1) := by
  unfold chunkLen chunkOff doneAt sectorStart at *
  split_ifs <;> omega

theorem chunk_place (count : UInt64) (h : sectorStart off ≤ sec) :
    chunkOff off sec + chunkLen count off sec (doneAt count off sec) ≤ 512 ∧
      (0 < chunkLen count off sec (doneAt count off sec) →
        off.toNat + doneAt count off sec = 512 * sec + chunkOff off sec) := by
  unfold chunkLen chunkOff doneAt sectorStart at *
  split_ifs <;> omega

theorem toNat_ofNat_sector (h : sec < blk.sectorStop count off) :
    (UInt64.ofNat sec).toNat = sec := by
  have hlt := (off + count + 511).toNat_lt
  unfold sectorStop at h
  rw [UInt64.toNat_ofNat_of_lt']
  change sec < 2 ^ 64
  omega

theorem take_drop_ofFn (m : ℤ × UInt64 → SectorData) (devId : ℤ) {len co : ℕ} (hlen : co + len ≤ 512)
    (hplace : 0 < len → off.toNat + done = 512 * sec + co) :
    ((ofFn (m (devId, .ofNat sec))).drop co).take len =
      (range len).map fun j => byteAt m devId (off.toNat + (done + j)) := by
  apply ext_getElem
  · simp only [length_take, length_drop, length_ofFn, length_map, length_range]
    omega
  · intro j hj hj'
    have hjlen : j < len := by simpa using hj'
    have hdiv : (off.toNat + (done + j)) / 512 = sec := by omega
    have hmod : (off.toNat + (done + j)) % 512 = co + j := by omega
    simp only [getElem_take, getElem_drop, List.getElem_ofFn, getElem_map,
      getElem_range, byteAt, hdiv, hmod]

theorem patchBytes_chunk {len co : ℕ} (hnat : (UInt64.ofNat sec).toNat = sec)
    (hlen : co + len ≤ 512) (hplace : 0 < len → off.toNat + done = 512 * sec + co) :
    update (patchBytes m devId off.toNat done buf) (devId, .ofNat sec)
        (patchSector (patchBytes m devId off.toNat done buf (devId, .ofNat sec)) buf done co len) =
      patchBytes m devId off.toNat (done + len) buf := by
  funext k j
  by_cases hk : k = (devId, .ofNat sec)
  · subst hk
    rw [update_self]
    unfold patchSector patchBytes
    simp only [true_and]
    split_ifs with h1 h2 h2 h3 <;> first | omega | rfl | skip
    all_goals
      congr 1
      omega
  · rw [update_of_ne hk]
    unfold patchBytes
    by_cases hdev : k.1 = devId
    · have hne : k.2.toNat ≠ sec := by
        intro heq
        apply hk
        apply Prod.ext hdev
        rw [← UInt64.toNat_inj, hnat]
        exact heq
      split_ifs <;> first | omega | rfl
    · simp only [hdev, false_and]

theorem writeChunk_eq (s : BlkCache) (blk : BlkDev) (buf : ℕ → UInt8) (count off : UInt64)
    (sec done : ℕ) : s.writeChunk blk buf count off sec done =
      patchSector (s.disk (blk.devId, .ofNat sec)) buf done (chunkOff off sec)
        (chunkLen count off sec done) := by
  unfold writeChunk
  dsimp only
  split_ifs with hfull
  · funext j
    unfold patchSector
    rw [hfull.1, if_pos (by omega)]
    rfl
  · rfl

theorem Shows.writeLoop (m : ℤ × UInt64 → SectorData) (buf : ℕ → UInt8)
    (hsec : sectorStart off ≤ sec) (hstop : sec + n ≤ blk.sectorStop count off)
    (h : s.Shows (patchBytes m blk.devId off.toNat (doneAt count off sec) buf) [])
    (hclean : s.CleanFrom blk.devId (sectorStart off) (blk.sectorStop count off)) :
    (BlkCache.writeLoop blk buf count off n sec (doneAt count off sec) s).1.Shows
        (patchBytes m blk.devId off.toNat (doneAt count off (sec + n)) buf) [] ∧
      (BlkCache.writeLoop blk buf count off n sec (doneAt count off sec) s).2 =
        doneAt count off (sec + n) := by
  induction n generalizing sec s with
  | zero => exact ⟨h, rfl⟩
  | succ n ih =>
    have hlast : sec < blk.sectorStop count off := by omega
    have hnat := toNat_ofNat_sector hlast
    have hin : sectorStart off ≤ (UInt64.ofNat sec).toNat ∧
        (UInt64.ofNat sec).toNat < blk.sectorStop count off := by omega
    have hdisk := h.disk_of_cleanFrom hclean hin.1 hin.2
    obtain ⟨hlen, hplace⟩ := chunk_place count hsec
    have hthrough := h.writeThrough hclean hin.1 hin.2
      (s.writeChunk blk buf count off sec (doneAt count off sec))
    rw [writeChunk_eq, hdisk, patchBytes_chunk hnat hlen hplace, doneAt_succ hsec] at hthrough
    rw [BlkCache.writeLoop, doneAt_succ hsec, writeChunk_eq, hdisk, show sec + (n + 1) = sec + 1 + n by omega]
    exact ih (by omega) (by omega) hthrough (hclean.invalidate _ _ _)

theorem patchBytes_zero (m : ℤ × UInt64 → SectorData) (devId : ℤ) (off : ℕ) (buf : ℕ → UInt8) :
    patchBytes m devId off 0 buf = m := by
  funext k j
  unfold patchBytes
  rw [if_neg (by omega)]

theorem Shows.disk_writeAll {keys : List (ℤ × UInt64)} (h : s.Shows m keys) (k : ℤ × UInt64) :
    (keys.foldl flushWrite s).disk k = s.disk k ∨ (keys.foldl flushWrite s).disk k = m k := by
  induction keys generalizing s with
  | nil => exact .inl rfl
  | cons key keys ih =>
    rw [foldl_cons, flushWrite]
    cases hl : s.blkCacheLookup key.1 key.2 with
    | none => exact ih (Coherent.skip h (not_caches_of_lookup_eq_none hl))
    | some idx =>
      have hidx := caches_of_lookup_eq_some hl
      have hwb : (s.ahciBwrite key.1 key.2 (s.slot idx).data).Shows m keys :=
        Coherent.writeBack h hidx
      rcases ih hwb with hsame | hnew
      · rw [hsame]
        exact update_eq_or (h.data_eq idx key hidx) k
      · exact .inr hnew

section
variable (h : s.Shows m [])
include h

theorem readLoop_eq
    (hclean : s.CleanFrom blk.devId (sectorStart off) (blk.sectorStop count off))
    (hsec : sectorStart off ≤ sec) (hstop : sec + n ≤ blk.sectorStop count off) :
    s.readLoop blk count off n sec
        ((range (doneAt count off sec)).map fun j => byteAt m blk.devId (off.toNat + j)) =
      (range (doneAt count off (sec + n))).map fun j => byteAt m blk.devId (off.toNat + j) := by
  induction n generalizing sec with
  | zero => rfl
  | succ n ih =>
    have hlast : sec < blk.sectorStop count off := by omega
    have hnat := toNat_ofNat_sector hlast
    have hdisk : s.ahciBread blk.devId (.ofNat sec) = m (blk.devId, .ofNat sec) :=
      h.disk_of_cleanFrom hclean (by omega) (by omega)
    obtain ⟨hlen, hplace⟩ := chunk_place count hsec
    have hchunk := take_drop_ofFn m blk.devId hlen hplace
    rw [readLoop, hdisk, length_map, length_range, hchunk]
    have hjoin : range (doneAt count off (sec + 1)) = range (doneAt count off sec) ++
        (range (chunkLen count off sec (doneAt count off sec))).map
          (doneAt count off sec + ·) := by
      rw [← doneAt_succ hsec, range_add]
    have hnext := ih (show sectorStart off ≤ sec + 1 by omega) (by omega)
    rw [hjoin, map_append, map_map] at hnext
    rw [show sec + (n + 1) = sec + 1 + n by omega]
    exact hnext

theorem Shows.blockdevRead
    (hclean : s.Settled (.blockdevRead (some blk) count off)) :
    s.blockdevRead (some blk) count off = .ok (blk.bytes m count off) := by
  unfold BlkCache.blockdevRead BlkDev.bytes
  dsimp only
  by_cases hcount : count = 0
  · subst hcount
    simp [transferLen]
  · rw [if_neg hcount]
    by_cases hle : sectorStart off ≤ blk.sectorStop count off
    · have hloop := readLoop_eq (n := blk.sectorStop count off - sectorStart off) h
        (hclean hcount) le_rfl (by omega)
      rw [Nat.add_sub_cancel' hle, doneAt_sectorStart] at hloop
      exact congrArg Except.ok hloop
    · have hzero : blk.transferLen count off = 0 := by
        unfold transferLen sectorStart at *
        omega
      rw [hzero, Nat.sub_eq_zero_of_le (by omega)]
      rfl

theorem Shows.blockdevWrite
    (hclean : s.Settled (.blockdevWrite (some blk) buf count off)) :
    (s.blockdevWrite (some blk) buf count off).1.Shows
      (patchBytes m blk.devId off.toNat (blk.transferLen count off) buf) [] := by
  unfold BlkCache.blockdevWrite
  dsimp only
  by_cases hcount : count = 0
  · subst hcount
    rw [show blk.transferLen 0 off = 0 by simp [transferLen], patchBytes_zero]
    exact h
  · rw [if_neg hcount]
    by_cases hle : sectorStart off ≤ blk.sectorStop count off
    · have hsum := Nat.add_sub_cancel' hle
      have hloop := Shows.writeLoop (s := s) m buf le_rfl hsum.le
      rw [Nat.add_sub_cancel' hle, doneAt_sectorStart, patchBytes_zero] at hloop
      exact (hloop h (hclean hcount)).1
    · have hzero : blk.transferLen count off = 0 := by
        unfold transferLen sectorStart at *
        omega
      rw [hzero, patchBytes_zero, Nat.sub_eq_zero_of_le (by omega)]
      exact h

theorem Shows.diskStep {call : DiskCall} (hclean : s.Settled call) :
    (s.diskStep call).Shows (call.effect m) [] := by
  cases call with
  | cached call => exact h.step call
  | blockdevRead blk count off => exact h
  | blockdevWrite blk buf count off =>
    cases blk with
    | none => exact h
    | some blk => exact h.blockdevWrite hclean

theorem Shows.disk_flushSlots (devId : ℤ) (is : List (Fin 256))
    {p : BlkCache × List (ℤ × UInt64)} (hp : is.foldl (flushCollect devId) (s, []) = p)
    (k : ℤ × UInt64) :
    (p.2.foldl flushWrite p.1).disk k = s.disk k ∨ (p.2.foldl flushWrite p.1).disk k = m k := by
  have hcollect := (h.collect devId is).1
  have hdisk := disk_collect devId is (s, [])
  rw [hp] at hcollect hdisk
  rw [← hdisk]
  exact hcollect.disk_writeAll k

theorem Shows.disk_flush (devId : ℤ) (k : ℤ × UInt64) :
    (s.blkCacheFlush devId).disk k = s.disk k ∨ (s.blkCacheFlush devId).disk k = m k := by
  unfold blkCacheFlush
  generalize finRange 256 = is
  exact h.disk_flushSlots devId is rfl k

end

/-- The cache together with the contents of the disks as the callers see them. -/
abbrev Reaches (ok : BlkCache × (ℤ × UInt64 → SectorData) → DiskCall → Prop) :=
  Run.Reaches (fun (p : BlkCache × (ℤ × UInt64 → SectorData)) call p' =>
    some (p.1.diskStep call, call.effect p.2) = some p') ok

/-- While no transfer past the cache meets dirty data, every read returns the latest data, and
evictions and flushes write the latest data. -/
theorem reaches_coherent {disk : ℤ × UInt64 → SectorData}
    (h : Reaches (fun p call => p.1.Settled call) (blkCacheInit disk, disk) (s, m)) :
    (∀ devId sector, (s.blkCacheRead devId sector).1 = m (devId, sector)) ∧
      (∀ blk count off, s.Settled (.blockdevRead (some blk) count off) →
        s.blockdevRead (some blk) count off = .ok (blk.bytes m count off)) ∧
      (∀ k, s.blkCacheEvict.2.disk k = s.disk k ∨ s.blkCacheEvict.2.disk k = m k) ∧
      ∀ devId k, (s.blkCacheFlush devId).disk k = s.disk k ∨
        (s.blkCacheFlush devId).disk k = m k := by
  have hshows : s.Shows m [] := by
    apply h.invariant (I := fun p => p.1.Shows p.2 []) _ (Shows.init disk)
    intro p call p' hp hok hs
    cases hs
    exact hp.diskStep hok
  refine ⟨fun devId sector => (hshows.read devId sector).1, ?_, hshows.disk_evict,
    hshows.disk_flush⟩
  exact fun blk count off hclean => hshows.blockdevRead hclean

instance (s : BlkCache) (devId : ℤ) (start stop : ℕ) : Decidable (s.CleanFrom devId start stop) :=
  inferInstanceAs (Decidable (∀ i, (s.slot i).dirty = true → (s.slot i).devId = devId →
    ¬ (start ≤ (s.slot i).sector.toNat ∧ (s.slot i).sector.toNat < stop)))

theorem reaches_coherent_flushed : ∃ (s : BlkCache) (m : ℤ × UInt64 → SectorData),
    Reaches (fun p call => p.1.Settled call) (blkCacheInit (fun _ _ => 0), fun _ _ => 0) (s, m) ∧
      s.blockdevRead (some ⟨0, 100⟩) 2 1536 = .ok [9, 7] := by
  have hcached : Reaches (fun p call => p.1.Settled call)
      (blkCacheInit (fun _ _ => 0), fun _ _ => 0) _ :=
    .trans (.single (.cached (.write 0 3 fun _ => 7)) trivial rfl)
      (.single (.cached (.flush 0)) trivial rfl)
  have hwrite := hcached.trans (.single (.blockdevWrite (some ⟨0, 100⟩) (fun _ => 9) 1 1536)
    (fun _ => by decide +kernel) rfl)
  have hread := (reaches_coherent hwrite).2.1 ⟨0, 100⟩ 2 1536 (fun _ => by decide +kernel)
  exact ⟨_, _, hwrite, hread.trans (by decide +kernel)⟩

/-- A read of the device after a write through the cache returns the old byte. -/
theorem blockdevRead_stale : ∃ (s : BlkCache) (m : ℤ × UInt64 → SectorData),
    Reaches (fun _ _ => True) (blkCacheInit (fun _ _ => 0), fun _ _ => 0) (s, m) ∧
      s.blockdevRead (some ⟨0, 100⟩) 1 1536 = .ok [0] ∧ BlkDev.bytes ⟨0, 100⟩ m 1 1536 = [7] :=
  ⟨_, _, .single (.cached (.write 0 3 fun _ => 7)) trivial rfl, by decide +kernel,
    by decide +kernel⟩

end BlkCache
end Doppio
