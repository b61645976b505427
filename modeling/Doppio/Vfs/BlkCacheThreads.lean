import Doppio.Library.Run
import Doppio.Vfs.BlkCache

/-! Threads on the sector cache. A section under `blk_cache_lock` is one step, and so is a transfer
without it: a read that misses and a flush drop the lock around their transfers. -/
namespace Doppio
open Function
open List
namespace BlkCache

inductive Pc where
  | idle
  /-- `blk_cache_read` found no slot, after `seen` complete writes to the sector. -/
  | missed (k : ℤ × UInt64) (seen : ℕ)
  /-- The sector is in the caller's buffer, but not in the cache. -/
  | filling (k : ℤ × UInt64) (seen : ℕ) (buf : SectorData)
  /-- Between two turns of the second loop of `blk_cache_flush`. -/
  | flushing (todo : List (ℤ × UInt64))
  /-- The second loop has copied a slot to `tmp`. -/
  | writingBack (k : ℤ × UInt64) (tmp : SectorData) (todo : List (ℤ × UInt64))

/-- A complete read, with the writes to the sector complete when it began. -/
structure Returned where
  key : ℤ × UInt64
  seen : ℕ
  data : SectorData

/-- The cache and its threads; `history` is what each sector held, the original first, then one
entry for each complete write. -/
structure Threads where
  cache : BlkCache
  pc : ℕ → Pc
  history : ℤ × UInt64 → List SectorData
  returned : List Returned

inductive ThreadEvent where
  | read (t : ℕ) (k : ℤ × UInt64)
  | write (t : ℕ) (k : ℤ × UInt64) (buf : SectorData)
  | flush (t : ℕ) (devId : ℤ)
  /-- The next section or transfer of a call that has begun. -/
  | resume (t : ℕ)

namespace Threads

def init (disk : ℤ × UInt64 → SectorData) : Threads :=
  ⟨blkCacheInit disk, fun _ => .idle, fun k => [disk k], []⟩

variable (s : Threads)

/-- What callers have to see. -/
def latest (k : ℤ × UInt64) : SectorData := (s.history k).getLastD fun _ => 0

def move (t : ℕ) (cache : BlkCache) (p : Pc) : Threads :=
  { s with cache := cache, pc := update s.pc t p }

def deliver (r : Returned) : Threads := { s with returned := s.returned ++ [r] }

/-- The first section of `blk_cache_read`. -/
def beginRead (t : ℕ) (k : ℤ × UInt64) : Threads :=
  let seen := (s.history k).length - 1
  match s.cache.blkCacheLookup k.1 k.2 with
  | some idx => s.deliver ⟨k, seen, (s.cache.slot idx).data⟩
  | none => s.move t s.cache (.missed k seen)

def write (k : ℤ × UInt64) (buf : SectorData) : Threads :=
  { s with
    cache := s.cache.blkCacheWrite k.1 k.2 buf
    history := update s.history k (s.history k ++ [buf]) }

/-- The first section of `blk_cache_flush`. -/
def beginFlush (t : ℕ) (devId : ℤ) : Threads :=
  let p := (List.finRange 256).foldl (flushCollect devId) (s.cache, [])
  s.move t p.1 (.flushing p.2)

/-- The second section of `blk_cache_read`, without another lookup. -/
def fill (t : ℕ) (k : ℤ × UInt64) (seen : ℕ) (buf : SectorData) : Threads :=
  let (idx, cache) := s.cache.blkCacheEvict
  (s.move t (cache.setSlot idx ⟨k.1, k.2, buf, true, false⟩) .idle).deliver ⟨k, seen, buf⟩

/-- A section of the second loop of `blk_cache_flush`. -/
def copyOut (t : ℕ) (k : ℤ × UInt64) (todo : List (ℤ × UInt64)) : Threads :=
  match s.cache.blkCacheLookup k.1 k.2 with
  | some idx => s.move t s.cache (.writingBack k (s.cache.slot idx).data todo)
  | none => s.move t s.cache (.flushing todo)

def resume (t : ℕ) : Option Threads :=
  match s.pc t with
  | .idle => none
  | .missed k seen => some (s.move t s.cache (.filling k seen (s.cache.ahciBread k.1 k.2)))
  | .filling k seen buf => some (s.fill t k seen buf)
  | .flushing [] => some (s.move t s.cache .idle)
  | .flushing (k :: todo) => some (s.copyOut t k todo)
  | .writingBack k tmp todo => some (s.move t (s.cache.ahciBwrite k.1 k.2 tmp) (.flushing todo))

def isIdle (t : ℕ) : Bool :=
  match s.pc t with
  | .idle => true
  | _ => false

/-- One step of a thread; a thread in a call begins no other. -/
def next : ThreadEvent → Option Threads
  | .read t k => if s.isIdle t then some (s.beginRead t k) else none
  | .write t k buf => if s.isIdle t then some (s.write k buf) else none
  | .flush t devId => if s.isIdle t then some (s.beginFlush t devId) else none
  | .resume t => s.resume t

def Step (e : ThreadEvent) (s' : Threads) : Prop := s.next e = some s'

end Threads

section
variable (c : BlkCache)

/-- The next slot to go is invalid or dirty, or on the disk. -/
def EvictsSaved : Prop :=
  (c.slot c.next).valid = true → (c.slot c.next).dirty = false →
    c.disk ((c.slot c.next).devId, (c.slot c.next).sector) = (c.slot c.next).data

/-- While the lock was dropped nothing happened to the sector: a missed read still misses with the
disk as read, and a flush writes what the slot or the disk holds. -/
def UndisturbedAt : Pc → Prop
  | .filling k _ buf => c.blkCacheLookup k.1 k.2 = none ∧ c.disk k = buf ∧ c.EvictsSaved
  | .writingBack k tmp _ =>
    c.disk k = tmp ∨ ∃ i ∈ c.blkCacheLookup k.1 k.2, (c.slot i).data = tmp
  | _ => True

def Undisturbed (s : Threads) : ThreadEvent → Prop
  | .write _ k _ => s.cache.blkCacheLookup k.1 k.2 = none → s.cache.EvictsSaved
  | .resume t => s.cache.UndisturbedAt (s.pc t)
  | _ => True

instance : Decidable c.EvictsSaved :=
  inferInstanceAs (Decidable (_ → _ → _))

instance : ∀ p, Decidable (c.UndisturbedAt p)
  | .filling _ _ _ => inferInstanceAs (Decidable (_ ∧ _ ∧ _))
  | .writingBack _ _ _ => inferInstanceAs (Decidable (_ ∨ _))
  | .idle => .isTrue trivial
  | .missed _ _ => .isTrue trivial
  | .flushing _ => .isTrue trivial

end

instance (s : Threads) : ∀ e, Decidable (Undisturbed s e)
  | .write _ _ _ => inferInstanceAs (Decidable (_ → _))
  | .resume _ => inferInstanceAs (Decidable (UndisturbedAt _ _))
  | .read _ _ => .isTrue trivial
  | .flush _ _ => .isTrue trivial

section Cache
variable {c : BlkCache} {m : ℤ × UInt64 → SectorData} {pending : List (ℤ × UInt64)}

theorem Shows.disk_of_evictsSaved (h : c.Shows m pending) (he : c.EvictsSaved) (k : ℤ × UInt64)
    (hk : (c.line c.next).Caches k) (hd : (c.slot c.next).dirty = false) : c.disk k = m k := by
  have hdisk := he hk.1 hd
  rw [← h.data_eq c.next k hk, ← hk.2]
  exact hdisk

theorem disk_write (c : BlkCache) (k : ℤ × UInt64) (buf : SectorData) :
    (c.blkCacheWrite k.1 k.2 buf).disk = c.disk ∨
    (c.blkCacheWrite k.1 k.2 buf).disk = c.blkCacheEvict.2.disk := by
  unfold blkCacheWrite
  cases c.blkCacheLookup k.1 k.2 with
  | some idx => exact .inl rfl
  | none => exact .inr rfl

theorem Shows.collect_pending (h : c.Shows m pending) (devId : ℤ) (is : List (Fin 256))
    (todo : List (ℤ × UInt64)) :
    ∃ pending', (is.foldl (flushCollect devId) (c, todo)).1.Shows m pending' := by
  induction is generalizing c pending todo with
  | nil => exact ⟨pending, h⟩
  | cons i is ih =>
    rw [foldl_cons, flushCollect]
    split_ifs
    · have hmark : (c.setSlot i { c.slot i with dirty := false }).Shows m
          (pending ++ [(c.line i).key]) := by
        rw [Shows, line_setSlot]
        exact h.mark rfl
      exact ih hmark _
    · exact ih h todo

end Cache

namespace Threads
variable {s s' : Threads} {t : ℕ} {k : ℤ × UInt64} {c : BlkCache}

@[simp] theorem pc_move_self {p : Pc} : (s.move t c p).pc t = p :=
  update_self ..

theorem pc_move_of_ne {p : Pc} {t' : ℕ} (h : t' ≠ t) :
    (s.move t c p).pc t' = s.pc t' := update_of_ne h ..

theorem latest_mem_drop {n : ℕ} (h : n < (s.history k).length) :
    s.latest k ∈ (s.history k).drop n := by
  have hne : (s.history k).drop n ≠ [] := by
    rw [Ne, drop_eq_nil_iff]
    omega
  have hlast : s.latest k = ((s.history k).drop n).getLast hne := by
    rw [latest, getLastD_eq_getLast?, getLast_drop hne,
      getLast?_eq_some_getLast (ne_nil_of_length_pos (by omega)), Option.getD_some]
  rw [hlast]
  exact getLast_mem hne

structure Sound (s : Threads) : Prop where
  began : ∀ k, s.history k ≠ []
  shows : ∃ pending, s.cache.Shows s.latest pending
  missed : ∀ t k n, s.pc t = .missed k n →
    n < (s.history k).length ∧ s.cache.disk k ∈ (s.history k).drop n
  filling : ∀ t k n buf, s.pc t = .filling k n buf → buf ∈ (s.history k).drop n
  returned : ∀ r ∈ s.returned, r.data ∈ (s.history r.key).drop r.seen

theorem Sound.init (disk : ℤ × UInt64 → SectorData) : (Threads.init disk).Sound := by
  refine ⟨fun k => cons_ne_nil _ _, ⟨[], Shows.init disk⟩, fun t k n h => ?_,
    fun t k n buf h => ?_, fun r hr => ?_⟩
  · cases h
  · cases h
  · cases hr

section
variable (h : s.Sound)
include h

theorem Sound.move {p : Pc} (hshows : ∃ pending, c.Shows s.latest pending)
    (hdisk : ∀ k, c.disk k = s.cache.disk k ∨ c.disk k = s.latest k)
    (hmissed : ∀ k n, p = .missed k n → n < (s.history k).length ∧ c.disk k ∈ (s.history k).drop n)
    (hfilling : ∀ k n buf, p = .filling k n buf → buf ∈ (s.history k).drop n) :
    (s.move t c p).Sound := by
  refine ⟨h.began, hshows, fun t' k n hp => ?_, fun t' k n buf hp => ?_, h.returned⟩
  · by_cases ht : t' = t
    · subst ht
      rw [pc_move_self] at hp
      exact hmissed k n hp
    · rw [pc_move_of_ne ht] at hp
      obtain ⟨hlt, hmem⟩ := h.missed t' k n hp
      refine ⟨hlt, ?_⟩
      rcases hdisk k with hsame | hnew
      · exact hsame ▸ hmem
      · exact hnew ▸ latest_mem_drop hlt
  · by_cases ht : t' = t
    · subst ht
      rw [pc_move_self] at hp
      exact hfilling k n buf hp
    · rw [pc_move_of_ne ht] at hp
      exact h.filling t' k n buf hp

theorem Sound.deliver {r : Returned} (hr : r.data ∈ (s.history r.key).drop r.seen) :
    (s.deliver r).Sound := by
  refine { h with returned := fun r' hr' => ?_ }
  rcases mem_append.mp hr' with hr' | hr'
  · exact h.returned r' hr'
  · rw [mem_singleton.mp hr']
    exact hr

theorem Sound.beginRead : (s.beginRead t k).Sound := by
  obtain ⟨pending, hshows⟩ := h.shows
  have hpos : 0 < (s.history k).length := length_pos_iff.mpr (h.began k)
  have hlast : s.latest k ∈ (s.history k).drop ((s.history k).length - 1) :=
    latest_mem_drop (by omega)
  unfold Threads.beginRead
  cases hl : s.cache.blkCacheLookup k.1 k.2 with
  | some idx =>
    refine h.deliver ?_
    rw [← hshows.data_eq idx k (caches_of_lookup_eq_some hl)] at hlast
    exact hlast
  | none =>
    refine h.move h.shows (fun _ => .inl rfl) (fun k' n hp => ?_) fun k' n buf hp => by cases hp
    cases hp
    rw [hshows.absent k (not_caches_of_lookup_eq_none hl)]
    exact ⟨by omega, hlast⟩

theorem Sound.beginFlush (devId : ℤ) : (s.beginFlush t devId).Sound := by
  obtain ⟨pending, hshows⟩ := h.shows
  refine h.move (hshows.collect_pending devId _ _) (fun k => .inl ?_) (fun k' n hp => by cases hp)
    fun k' n buf hp => by cases hp
  rw [disk_collect]

variable {todo : List (ℤ × UInt64)}

theorem Sound.copyOut : (s.copyOut t k todo).Sound := by
  unfold Threads.copyOut
  cases s.cache.blkCacheLookup k.1 k.2 with
  | some idx =>
    exact h.move h.shows (fun _ => .inl rfl) (fun k' n hp => by cases hp)
      fun k' n buf hp => by cases hp
  | none =>
    exact h.move h.shows (fun _ => .inl rfl) (fun k' n hp => by cases hp)
      fun k' n buf hp => by cases hp

theorem Sound.fill {n : ℕ} {buf : SectorData} (hp : s.pc t = .filling k n buf)
    (hok : s.cache.UndisturbedAt (s.pc t)) : (s.fill t k n buf).Sound := by
  rw [hp] at hok
  obtain ⟨hl, rfl, hevict⟩ := hok
  obtain ⟨pending, hshows⟩ := h.shows
  have hmove : (s.move t (s.cache.blkCacheEvict.2.setSlot s.cache.blkCacheEvict.1
      ⟨k.1, k.2, s.cache.disk k, true, false⟩) .idle).Sound :=
    h.move ⟨pending, hshows.fill (hshows.disk_of_evictsSaved hevict) hl⟩ hshows.disk_evict
      (fun k' n hp => by cases hp) fun k' n buf hp => by cases hp
  exact hmove.deliver (h.filling t k n _ hp)

theorem Sound.writeBack {tmp : SectorData}
    (hp : s.pc t = .writingBack k tmp todo) (hok : s.cache.UndisturbedAt (s.pc t)) :
    (s.move t (s.cache.ahciBwrite k.1 k.2 tmp) (.flushing todo)).Sound := by
  rw [hp] at hok
  obtain ⟨pending, hshows⟩ := h.shows
  have hsame (hdisk : s.cache.disk k = tmp) : s.cache.ahciBwrite k.1 k.2 tmp = s.cache := by
    rw [ahciBwrite, ← hdisk, update_eq_self]
  refine h.move ?_ (fun k' => ?_) (fun k' n hp => by cases hp) fun k' n buf hp => by cases hp
  · rcases hok with hdisk | ⟨i, hi, rfl⟩
    · rw [hsame hdisk]
      exact h.shows
    · exact ⟨pending, (hshows.pend k).writeBack (caches_of_lookup_eq_some hi)⟩
  · rcases hok with hdisk | ⟨i, hi, rfl⟩
    · rw [hsame hdisk]
      exact .inl rfl
    · show update s.cache.disk (k.1, k.2) _ k' = _ ∨ update _ _ _ k' = _
      rw [update_apply]
      split_ifs with hk
      · subst hk
        exact .inr (hshows.data_eq i _ (caches_of_lookup_eq_some hi))
      · exact .inl rfl

end

theorem mem_drop_write {n : ℕ} {x buf : SectorData} {k' : ℤ × UInt64}
    (h : x ∈ (s.history k').drop n) : x ∈ ((s.write k buf).history k').drop n := by
  show x ∈ (update s.history k (s.history k ++ [buf]) k').drop n
  rw [update_apply]
  split_ifs with hk
  · subst hk
    rw [drop_append]
    exact mem_append_left _ h
  · exact h

theorem latest_write {buf : SectorData} :
    (s.write k buf).latest = update s.latest k buf := by
  funext k'
  rw [update_apply]
  show (update s.history k (s.history k ++ [buf]) k').getLastD _ = _
  rw [update_apply]
  split_ifs with hk
  · simp
  · rfl

theorem Sound.write {buf : SectorData} (h : s.Sound)
    (hok : s.cache.blkCacheLookup k.1 k.2 = none → s.cache.EvictsSaved) :
    (s.write k buf).Sound := by
  obtain ⟨pending, hshows⟩ := h.shows
  have hwrite := hshows.write k.1 k.2 buf fun hl => hshows.disk_of_evictsSaved (hok hl)
  have hdisk (k' : ℤ × UInt64) : (s.cache.blkCacheWrite k.1 k.2 buf).disk k' = s.cache.disk k' ∨
      (s.cache.blkCacheWrite k.1 k.2 buf).disk k' = s.latest k' := by
    rcases disk_write s.cache k buf with hd | hd
    · rw [hd]
      exact .inl rfl
    · rw [hd]
      exact hshows.disk_evict k'
  refine ⟨fun k' => ?_, ⟨pending, latest_write ▸ hwrite⟩, fun t' k' n hp => ?_,
    fun t' k' n x hp => mem_drop_write (h.filling t' k' n x hp),
    fun r hr => mem_drop_write (h.returned r hr)⟩
  · show update s.history k (s.history k ++ [buf]) k' ≠ []
    rw [update_apply]
    split_ifs
    · simp
    · exact h.began k'
  · obtain ⟨hlt, hmem⟩ := h.missed t' k' n hp
    have hlen : (s.history k').length ≤ ((s.write k buf).history k').length := by
      show _ ≤ (update s.history k (s.history k ++ [buf]) k').length
      rw [update_apply]
      split_ifs with hk
      · simp [hk]
      · rfl
    refine ⟨hlt.trans_le hlen, mem_drop_write ?_⟩
    rcases hdisk k' with hsame | hnew
    · exact hsame ▸ hmem
    · exact hnew ▸ latest_mem_drop hlt

theorem Sound.resume (h : s.Sound) (hok : s.cache.UndisturbedAt (s.pc t))
    (hstep : s.resume t = some s') : s'.Sound := by
  unfold Threads.resume at hstep
  cases hp : s.pc t with
  | idle => simp [hp] at hstep
  | missed k n =>
    rw [hp] at hstep
    cases hstep
    refine h.move h.shows (fun _ => .inl rfl) (fun k' n hp => by cases hp) fun k' n' buf hbuf => ?_
    cases hbuf
    exact (h.missed t k n hp).2
  | filling k n buf =>
    rw [hp] at hstep
    cases hstep
    exact h.fill hp hok
  | flushing todo =>
    rw [hp] at hstep
    cases todo with
    | nil =>
      cases hstep
      exact h.move h.shows (fun _ => .inl rfl) (fun k' n hp => by cases hp)
        fun k' n buf hp => by cases hp
    | cons k todo =>
      cases hstep
      exact h.copyOut
  | writingBack k tmp todo =>
    rw [hp] at hstep
    cases hstep
    exact h.writeBack hp hok

theorem Sound.of_step {e : ThreadEvent} (h : s.Sound) (hok : Undisturbed s e)
    (hstep : s.Step e s') : s'.Sound := by
  unfold Step at hstep
  cases e with
  | read t k =>
    rw [next] at hstep
    split_ifs at hstep
    cases hstep
    exact h.beginRead
  | write t k buf =>
    rw [next] at hstep
    split_ifs at hstep
    cases hstep
    exact h.write hok
  | flush t devId =>
    rw [next] at hstep
    split_ifs at hstep
    rw [← Option.some.inj hstep]
    exact h.beginFlush devId
  | resume t => exact h.resume hok hstep

/-- If nothing happens to a sector while a call on it has dropped the lock, no two slots cache one
sector, a read returns a write that was complete when it began or a later one, and the latest write
to a sector is in the cache or on the disk. -/
theorem reaches_current (disk : ℤ × UInt64 → SectorData) {s : Threads}
    (h : Run.Reaches Step Undisturbed (Threads.init disk) s) :
    (∀ i j, (s.cache.slot i).valid = true → (s.cache.slot j).valid = true →
      (s.cache.slot i).devId = (s.cache.slot j).devId →
      (s.cache.slot i).sector = (s.cache.slot j).sector → i = j) ∧
    (∀ r ∈ s.returned, r.data ∈ (s.history r.key).drop r.seen) ∧
    ∀ k, s.cache.disk k = s.latest k ∨ ∃ i, (s.cache.slot i).valid = true ∧
      ((s.cache.slot i).devId, (s.cache.slot i).sector) = k ∧
        (s.cache.slot i).data = s.latest k := by
  have hs : s.Sound := h.invariant (fun _ _ _ hI hok hstep => hI.of_step hok hstep) (.init disk)
  obtain ⟨pending, hshows⟩ := hs.shows
  refine ⟨fun i j hi hj hdev hsec => ?_, hs.returned, fun k => ?_⟩
  · exact hshows.unique i j _ ⟨hi, rfl⟩ ⟨hj, Prod.ext hdev.symm hsec.symm⟩
  · by_cases hk : ∃ i, (s.cache.line i).Caches k
    · obtain ⟨i, hi⟩ := hk
      exact .inr ⟨i, hi.1, hi.2, hshows.data_eq i k hi⟩
    · exact .inl (hshows.absent k (not_exists.mp hk))

/-- A missed read, a write to another sector meanwhile, a flush, and a read of what was written. -/
def overlap : List ThreadEvent :=
  [.read 0 (0, 7), .write 1 (0, 8) fun _ => 5, .resume 0, .resume 0, .flush 0 (-1), .resume 0,
    .resume 0, .read 1 (0, 8)]

theorem reaches_current_overlap : ∃ s, Run.Reaches Step Undisturbed (Threads.init fun _ _ => 0) s ∧
    s.returned.map (fun r => (r.key, r.seen)) = [((0, 7), 0), ((0, 8), 1)] ∧
    ∀ r ∈ s.returned, r.data ∈ (s.history r.key).drop r.seen := by
  obtain ⟨s, hs, hret⟩ : ∃ s ∈ overlap.foldlM
      (fun s e => if Undisturbed s e then next s e else none) (Threads.init fun _ _ => 0),
      s.returned.map (fun r => (r.key, r.seen)) = [((0, 7), 0), ((0, 8), 1)] := by
    decide +kernel
  have hreach := Run.reaches_of_guarded hs
  exact ⟨s, hreach, hret, (reaches_current _ hreach).2.1⟩

/-- Two threads miss in the same sector, and each fills a slot. -/
theorem two_slots_cache_sector :
    ∃ s, Run.Reaches Step (fun _ _ => True) (Threads.init fun _ _ => 0) s ∧
      ∃ i j, i ≠ j ∧ (s.cache.slot i).valid = true ∧ (s.cache.slot j).valid = true ∧
        (s.cache.slot i).devId = (s.cache.slot j).devId ∧
        (s.cache.slot i).sector = (s.cache.slot j).sector := by
  obtain ⟨s, hs, h0, h1, hd0, hd1, hs0, hs1⟩ : ∃ s ∈ [ThreadEvent.read 0 (0, 7), .read 1 (0, 7),
      .resume 0, .resume 1, .resume 0, .resume 1].foldlM next (Threads.init fun _ _ => 0),
      (s.cache.slot 0).valid = true ∧ (s.cache.slot 1).valid = true ∧ (s.cache.slot 0).devId = 0 ∧
      (s.cache.slot 1).devId = 0 ∧ (s.cache.slot 0).sector = 7 ∧ (s.cache.slot 1).sector = 7 := by
    decide +kernel
  exact ⟨s, Run.reaches_of_foldlM hs, 0, 1, by decide, h0, h1, hd0.trans hd1.symm,
    hs0.trans hs1.symm⟩

end Threads

end BlkCache
end Doppio
