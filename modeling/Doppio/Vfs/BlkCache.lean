import Doppio.Library.WriteBack
import Mathlib.Data.Fintype.Pi

/-! The sector cache in front of the AHCI disks (`kernel/vfs/blk_cache.c`). -/
namespace Doppio
open Function Bool

open WriteBack List

abbrev SectorData := Fin 512 → UInt8

structure BlkCacheSlot where
  devId : ℤ
  sector : UInt64
  data : SectorData
  valid : Bool
  dirty : Bool

/-- The static variables of the file, and the disks behind them. -/
structure BlkCache where
  slot : Fin 256 → BlkCacheSlot
  next : Fin 256
  disk : ℤ × UInt64 → SectorData

namespace BlkCache

section
variable (s : BlkCache)

/-- A transfer that succeeds. -/
def ahciBread (devId : ℤ) (sector : UInt64) : SectorData := s.disk (devId, sector)

def ahciBwrite (devId : ℤ) (sector : UInt64) (buf : SectorData) : BlkCache :=
  { s with disk := update s.disk (devId, sector) buf }

def setSlot (i : Fin 256) (e : BlkCacheSlot) : BlkCache :=
  { s with slot := update s.slot i e }

/-- The index; `none` is -1. -/
def blkCacheLookup (devId : ℤ) (sector : UInt64) : Option (Fin 256) :=
  (List.finRange 256).find? fun i =>
    (s.slot i).valid && (s.slot i).devId == devId && (s.slot i).sector == sector

def blkCacheEvict : Fin 256 × BlkCache :=
  let idx := s.next
  let s := { s with next := s.next + 1 }
  let e := s.slot idx
  let s := if e.dirty then s.ahciBwrite e.devId e.sector e.data else s
  (idx, s.setSlot idx { e with dirty := false, valid := false })

def blkCacheRead (devId : ℤ) (sector : UInt64) : SectorData × BlkCache :=
  match s.blkCacheLookup devId sector with
  | some idx => ((s.slot idx).data, s)
  | none =>
    let buf := s.ahciBread devId sector
    let (idx, s) := s.blkCacheEvict
    (buf, s.setSlot idx ⟨devId, sector, buf, true, false⟩)

def blkCacheWrite (devId : ℤ) (sector : UInt64) (buf : SectorData) : BlkCache :=
  let (idx, s) :=
    match s.blkCacheLookup devId sector with
    | some idx => (idx, s)
    | none =>
      let (idx, s) := s.blkCacheEvict
      (idx, s.setSlot idx { s.slot idx with devId := devId, sector := sector, valid := true })
  s.setSlot idx { s.slot idx with data := buf, dirty := true }

/-- The first loop of `blk_cache_flush`: one turn. -/
def flushCollect (devId : ℤ) (p : BlkCache × List (ℤ × UInt64)) (i : Fin 256) :
    BlkCache × List (ℤ × UInt64) :=
  let e := p.1.slot i
  if e.valid && e.dirty && (decide (devId < 0) || e.devId == devId) then
    (p.1.setSlot i { e with dirty := false }, p.2 ++ [(e.devId, e.sector)])
  else p

/-- The second loop: one turn. -/
def flushWrite (k : ℤ × UInt64) : BlkCache :=
  match s.blkCacheLookup k.1 k.2 with
  | some idx => s.ahciBwrite k.1 k.2 (s.slot idx).data
  | none => s

def blkCacheFlush (devId : ℤ) : BlkCache :=
  let p := (List.finRange 256).foldl (flushCollect devId) (s, [])
  p.2.foldl flushWrite p.1

end

/-- The slots are the zeroed static array. -/
def blkCacheInit (disk : ℤ × UInt64 → SectorData) : BlkCache :=
  ⟨fun _ => ⟨0, 0, fun _ => 0, false, false⟩, 0, disk⟩

end BlkCache

inductive BlkCall where
  | read (devId : ℤ) (sector : UInt64)
  | write (devId : ℤ) (sector : UInt64) (buf : SectorData)
  | flush (devId : ℤ)

namespace BlkCache

def step (s : BlkCache) : BlkCall → BlkCache
  | .read devId sector => (s.blkCacheRead devId sector).2
  | .write devId sector buf => s.blkCacheWrite devId sector buf
  | .flush devId => s.blkCacheFlush devId

def run (s : BlkCache) (calls : List BlkCall) : BlkCache := calls.foldl step s

end BlkCache

/-- What a call does to the disks as callers see them. -/
def BlkCall.effect (m : ℤ × UInt64 → SectorData) : BlkCall → ℤ × UInt64 → SectorData
  | .write devId sector buf => update m (devId, sector) buf
  | .read _ _ => m
  | .flush _ => m

/-- The latest write to each sector, else the original. -/
def logicalContents (disk : ℤ × UInt64 → SectorData) (calls : List BlkCall) :
    ℤ × UInt64 → SectorData :=
  calls.foldl BlkCall.effect disk

namespace BlkCache

/-- A slot as a line of a write-back cache. -/
def line (s : BlkCache) (i : Fin 256) : Line (ℤ × UInt64) SectorData :=
  ⟨((s.slot i).devId, (s.slot i).sector), (s.slot i).data, (s.slot i).valid, (s.slot i).dirty⟩

/-- The cache and its disks show `m`. -/
def Shows (s : BlkCache) (m : ℤ × UInt64 → SectorData) (pending : List (ℤ × UInt64)) : Prop :=
  Coherent s.line s.disk m pending

variable {s : BlkCache} {m : ℤ × UInt64 → SectorData} {pending : List (ℤ × UInt64)}
  {devId : ℤ} {sector : UInt64} {i : Fin 256} {e : BlkCacheSlot}

@[simp] theorem slot_setSlot_self : (s.setSlot i e).slot i = e := update_self ..

theorem slot_setSlot_of_ne {j : Fin 256} (h : j ≠ i) : (s.setSlot i e).slot j = s.slot j :=
  update_of_ne h ..

@[simp] theorem line_setSlot : (s.setSlot i e).line =
    update s.line i ⟨(e.devId, e.sector), e.data, e.valid, e.dirty⟩ := by
  funext j
  by_cases hji : j = i
  · subst hji
    simp [line]
  · simp only [line, slot_setSlot_of_ne hji, update_of_ne hji]

theorem caches_of_lookup_eq_some (h : s.blkCacheLookup devId sector = some i) :
    (s.line i).Caches (devId, sector) := by
  have hi := find?_some h
  simp only [and_eq_true, beq_iff_eq] at hi
  exact ⟨hi.1.1, Prod.ext hi.1.2 hi.2⟩

theorem not_caches_of_lookup_eq_none (h : s.blkCacheLookup devId sector = none) (i : Fin 256) :
    ¬(s.line i).Caches (devId, sector) := by
  rintro ⟨hvalid, hkey⟩
  obtain ⟨hdev, hsec⟩ := Prod.mk.inj hkey
  have hi := find?_eq_none.mp h i (mem_finRange i)
  have hv : (s.slot i).valid = true := hvalid
  simp [hv, hdev, hsec] at hi

theorem Shows.init (disk : ℤ × UInt64 → SectorData) : (blkCacheInit disk).Shows disk [] :=
  coherent_of_invalid (fun _ => rfl) fun _ => rfl

theorem update_eq_or {disk : ℤ × UInt64 → SectorData} {key : ℤ × UInt64} {data : SectorData}
    (hdata : data = m key) (k : ℤ × UInt64) :
    update disk key data k = disk k ∨ update disk key data k = m k := by
  by_cases hk : k = key
  · rw [hk, update_self]
    exact .inr hdata
  · rw [update_of_ne hk]
    exact .inl rfl

theorem disk_collect (devId : ℤ) (is : List (Fin 256)) (p : BlkCache × List (ℤ × UInt64)) :
    (is.foldl (flushCollect devId) p).1.disk = p.1.disk := by
  induction is generalizing p with
  | nil => rfl
  | cons i is ih =>
    rw [foldl_cons, ih, flushCollect]
    split_ifs <;> rfl

section
variable (h : s.Shows m pending)
include h

/-- An eviction keeps the memory, unless the slot is clean and its data have not reached the disk.
-/
theorem Shows.evict
    (hclean : ∀ k, (s.line s.next).Caches k → (s.slot s.next).dirty = false → s.disk k = m k) :
    s.blkCacheEvict.2.Shows m pending ∧ (s.blkCacheEvict.2.line s.blkCacheEvict.1).valid = false ∧
      ∀ j k, (s.blkCacheEvict.2.line j).Caches k → (s.line j).Caches k := by
  have hline : s.blkCacheEvict.2.line = update s.line s.next
      { s.line s.next with valid := false, dirty := false } := by
    simp only [blkCacheEvict, line_setSlot]
    split_ifs <;> rfl
  have hkeep : ∀ k, (s.line s.next).Caches k → s.blkCacheEvict.2.disk k = m k := by
    intro k hk
    by_cases hd : (s.slot s.next).dirty = true
    · have hdisk : s.blkCacheEvict.2.disk =
          update s.disk (s.line s.next).key (s.line s.next).data := by
        simp only [blkCacheEvict, hd]
        rfl
      rw [hdisk, hk.2, update_self]
      exact h.data_eq _ k hk
    · have hdisk : s.blkCacheEvict.2.disk = s.disk := by
        simp only [blkCacheEvict, hd]
        rfl
      rw [hdisk]
      exact hclean k hk (eq_false_iff.mpr hd)
  have hcoh : Coherent s.line s.blkCacheEvict.2.disk m pending := by
    by_cases hd : (s.slot s.next).dirty = true
    · have hself : (s.line s.next).Caches (s.line s.next).key :=
        ⟨h.valid_of_dirty s.next hd, rfl⟩
      have hback := (h.pend (s.line s.next).key).writeBack hself
      simp only [blkCacheEvict, hd]
      exact hback
    · simp only [blkCacheEvict, hd]
      exact h
  refine ⟨?_, ?_, fun j k hj => ?_⟩
  · rw [Shows, hline]
    exact hcoh.invalidate rfl rfl hkeep
  · rw [hline]
    show (update s.line s.next _ s.next).valid = false
    rw [update_self]
  · rw [hline] at hj
    by_cases hji : j = s.next
    · subst hji
      rw [update_self] at hj
      cases hj.1
    · rwa [update_of_ne hji] at hj

theorem Shows.disk_evict (k : ℤ × UInt64) :
    s.blkCacheEvict.2.disk k = s.disk k ∨ s.blkCacheEvict.2.disk k = m k := by
  unfold blkCacheEvict
  dsimp only
  split_ifs with hd
  · have hself : (s.line s.next).Caches (s.line s.next).key := ⟨h.valid_of_dirty s.next hd, rfl⟩
    exact update_eq_or (h.data_eq _ _ hself) k
  · exact .inl rfl

theorem Shows.fill
    (hclean : ∀ k, (s.line s.next).Caches k → (s.slot s.next).dirty = false → s.disk k = m k)
    (hl : s.blkCacheLookup devId sector = none) :
    (s.blkCacheEvict.2.setSlot s.blkCacheEvict.1
      ⟨devId, sector, s.disk (devId, sector), true, false⟩).Shows m pending := by
  have hnone := not_caches_of_lookup_eq_none hl
  have hdisk : s.disk (devId, sector) = m (devId, sector) := h.absent _ hnone
  obtain ⟨hev, hfree, hsub⟩ := h.evict hclean
  have habsent : ∀ j, ¬(s.blkCacheEvict.2.line j).Caches (devId, sector) :=
    fun j hj => hnone j (hsub j _ hj)
  have hput := hev.put (l := ⟨(devId, sector), m (devId, sector), true, false⟩)
    (m (devId, sector)) ⟨rfl, rfl⟩ rfl (fun _ => hev.absent _ habsent)
    (fun j hj => absurd hj (habsent j)) (.inr hfree)
  rw [update_eq_self] at hput
  show Coherent _ _ _ _
  rw [line_setSlot, hdisk]
  exact hput

theorem Shows.write (devId : ℤ) (sector : UInt64) (buf : SectorData)
    (hclean : s.blkCacheLookup devId sector = none → ∀ k, (s.line s.next).Caches k →
      (s.slot s.next).dirty = false → s.disk k = m k) :
    (s.blkCacheWrite devId sector buf).Shows (update m (devId, sector) buf) pending := by
  unfold blkCacheWrite
  cases hl : s.blkCacheLookup devId sector with
  | some idx =>
    have hidx := caches_of_lookup_eq_some hl
    show Coherent _ _ _ _
    rw [line_setSlot]
    exact h.put buf ⟨hidx.1, hidx.2⟩ rfl (fun hc => absurd hc.symm false_ne_true)
      (fun j hj => h.unique j idx _ hj hidx) (.inl hidx)
  | none =>
    obtain ⟨hev, hfree, hsub⟩ := h.evict (hclean hl)
    show Coherent _ _ _ _
    rw [line_setSlot, line_setSlot, update_idem]
    simp only [slot_setSlot_self]
    exact hev.put buf ⟨rfl, rfl⟩ rfl (fun hc => absurd hc.symm false_ne_true)
      (fun j hj => absurd (hsub j _ hj) (not_caches_of_lookup_eq_none hl j)) (.inr hfree)

theorem Shows.writeAll :
    (pending.foldl flushWrite s).Shows m [] ∧ (pending.foldl flushWrite s).slot = s.slot := by
  induction pending generalizing s with
  | nil => exact ⟨h, rfl⟩
  | cons k pending ih =>
    rw [foldl_cons]
    unfold flushWrite
    cases hl : s.blkCacheLookup k.1 k.2 with
    | some idx =>
      have hwb : (s.ahciBwrite k.1 k.2 (s.slot idx).data).Shows m pending :=
        Coherent.writeBack h (caches_of_lookup_eq_some hl)
      obtain ⟨hshow, hslot⟩ := ih hwb
      exact ⟨hshow, hslot⟩
    | none => exact ih (Coherent.skip h (not_caches_of_lookup_eq_none hl))

end

section
variable (h : s.Shows m [])
include h

theorem Shows.disk_of_clean (k : ℤ × UInt64) (hk : (s.line i).Caches k)
    (hd : (s.slot i).dirty = false) : s.disk k = m k := by
  simpa using h.clean i k hk hd

theorem Shows.read (devId : ℤ) (sector : UInt64) :
    (s.blkCacheRead devId sector).1 = m (devId, sector) ∧
      (s.blkCacheRead devId sector).2.Shows m [] := by
  unfold blkCacheRead
  cases hl : s.blkCacheLookup devId sector with
  | some idx => exact ⟨h.data_eq idx _ (caches_of_lookup_eq_some hl), h⟩
  | none =>
    exact ⟨h.absent _ (not_caches_of_lookup_eq_none hl), h.fill h.disk_of_clean hl⟩

/-- The keys collected are pending; the slots passed are dirty only for another device. -/
theorem Shows.collect (devId : ℤ) (is : List (Fin 256)) :
    (is.foldl (flushCollect devId) (s, [])).1.Shows m (is.foldl (flushCollect devId) (s, [])).2 ∧
      (devId < 0 → ∀ i ∈ is, ((is.foldl (flushCollect devId) (s, [])).1.slot i).dirty = false) := by
  induction is using reverseRecOn with
  | nil => exact ⟨h, fun _ i hi => absurd hi not_mem_nil⟩
  | append_singleton is i ih =>
    rw [foldl_append, foldl_cons, foldl_nil]
    obtain ⟨hshow, hclean⟩ := ih
    generalize is.foldl (flushCollect devId) (s, []) = p at hshow hclean
    simp only [flushCollect]
    split_ifs with hc
    · refine ⟨?_, fun hneg j hj => ?_⟩
      · show Coherent _ _ _ _
        rw [line_setSlot]
        exact hshow.mark rfl
      · by_cases hji : j = i
        · subst hji
          rw [slot_setSlot_self]
        · rw [slot_setSlot_of_ne hji]
          exact hclean hneg j (by simpa [hji] using hj)
    · refine ⟨hshow, fun hneg j hj => ?_⟩
      rcases mem_append.mp hj with hj | hj
      · exact hclean hneg j hj
      · rw [mem_singleton.mp hj]
        by_contra hd
        have hdirty : (p.1.slot i).dirty = true := of_not_eq_false hd
        have hvalid : (p.1.slot i).valid = true := hshow.valid_of_dirty i hdirty
        exact hc (by simp [hdirty, hvalid, hneg])

theorem Shows.flushSlots (devId : ℤ) {is : List (Fin 256)}
    (his : ∀ i, i ∈ is) {p : BlkCache × List (ℤ × UInt64)}
    (hp : is.foldl (flushCollect devId) (s, []) = p) :
    (p.2.foldl flushWrite p.1).Shows m [] ∧ (devId < 0 → (p.2.foldl flushWrite p.1).disk = m) := by
  obtain ⟨hshow, hclean⟩ := h.collect devId is
  rw [hp] at hshow hclean
  obtain ⟨hall, hslot⟩ := hshow.writeAll
  refine ⟨hall, fun hneg => hall.store_eq fun i => ?_⟩
  show ((p.2.foldl flushWrite p.1).slot i).dirty = false
  rw [hslot]
  exact hclean hneg i (his i)

theorem Shows.flush (devId : ℤ) :
    (s.blkCacheFlush devId).Shows m [] ∧ (devId < 0 → (s.blkCacheFlush devId).disk = m) := by
  exact h.flushSlots devId mem_finRange rfl

theorem Shows.step (call : BlkCall) : (s.step call).Shows (call.effect m) [] := by
  cases call with
  | read devId sector => exact (h.read devId sector).2
  | write devId sector buf => exact h.write devId sector buf fun _ => h.disk_of_clean
  | flush devId => exact (h.flush devId).1

theorem Shows.run (calls : List BlkCall) :
    (s.run calls).Shows (calls.foldl BlkCall.effect m) [] := by
  induction calls generalizing s m with
  | nil => exact h
  | cons call calls ih => exact ih (h.step call)

end

/-- After any calls a read returns the logical contents, no two valid slots cache one sector, and
flushing all devices leaves the logical contents on the disks. -/
theorem run_transparent (disk : ℤ × UInt64 → SectorData) (calls : List BlkCall) :
    (∀ devId sector, (((blkCacheInit disk).run calls).blkCacheRead devId sector).1 =
        logicalContents disk calls (devId, sector)) ∧
      (∀ i j, (((blkCacheInit disk).run calls).slot i).valid = true →
        (((blkCacheInit disk).run calls).slot j).valid = true →
        (((blkCacheInit disk).run calls).slot i).devId =
          (((blkCacheInit disk).run calls).slot j).devId →
        (((blkCacheInit disk).run calls).slot i).sector =
          (((blkCacheInit disk).run calls).slot j).sector → i = j) ∧
      (((blkCacheInit disk).run calls).blkCacheFlush (-1)).disk = logicalContents disk calls := by
  have h : ((blkCacheInit disk).run calls).Shows (logicalContents disk calls) [] :=
    (Shows.init disk).run calls
  refine ⟨fun devId sector => (h.read devId sector).1, ?_, (h.flush (-1)).2 (by decide)⟩
  intro i j hi hj hdev hsec
  exact h.unique i j _ ⟨hi, rfl⟩ ⟨hj, Prod.ext hdev.symm hsec.symm⟩

end BlkCache

end Doppio
