import Doppio.Kernel.Errno
import Doppio.Library.Bytes
import Doppio.Mmu.Translate

/-! `copy_to_user` and `copy_from_user` of `kernel/sys/syscall.c`, which look up each page of the
range and go through the direct map. -/
namespace Doppio
open Option
namespace Mmu

def userAddrLimit : ℕ := 0x0000800000000000

def isUserAddressRange (addr size : ℕ) : Bool :=
  let end_ := (addr + size) % 2 ^ 64
  addr ≤ end_ ∧ end_ ≤ userAddrLimit

/-- `memcpy` of `len` bytes to a physical address, in pages that hold no table. -/
def writeBytes (s : Mmu) (paddr : ℕ) (src : ℕ → BitVec 8) (len : ℕ) : Mmu :=
  { s with byte := fun a => if paddr ≤ a ∧ a < paddr + len then src (a - paddr) else s.byte a }

/-- `memcpy` to pages that may hold tables. -/
def writeMemory (s : Mmu) (paddr : ℕ) (src : ℕ → BitVec 8) (len : ℕ) : Mmu :=
  { s.writeBytes paddr src len with
    entry := fun p i =>
      if paddr < (p + 1) * pageSize ∧ p * pageSize < paddr + len then
        let a := p * pageSize + 8 * i
        .ofNat 64 (Bytes.le (fun j => if paddr ≤ a + j ∧ a + j < paddr + len then src (a + j - paddr)
          else (s.entry p i).extractLsb' (8 * j) 8) 0 8)
      else s.entry p i }

/-- To the end of the page or of the range. -/
def toCopy (start n copied : ℕ) : ℕ :=
  min (4096 - ((start + copied) % 2 ^ 64 &&& 0xFFF)) (n - copied)

/-- Every turn copies a byte, so `n` turns are enough. -/
def copyToUserLoop (write : Mmu → ℕ → (ℕ → BitVec 8) → ℕ → Mmu) (map dest : ℕ) (src : ℕ → BitVec 8) (n : ℕ) :
    ℕ → Mmu → ℕ → Option (Mmu × ℤ)
  | 0, _, _ => none
  | fuel + 1, s, copied =>
    if copied < n then
      let addr := (dest + copied) % 2 ^ 64
      let paddr := s.vmmGetPhys map addr
      if paddr = 0 then some (s, -eFAULT)
      else
        let len := toCopy dest n copied
        copyToUserLoop write map dest src n fuel (write s paddr (fun i => src (copied + i)) len)
          (copied + len)
    else some (s, 0)

/-- `copy_to_user` with the map `map`. -/
def copyToUser (s : Mmu) (map : Option ℕ) (dest : ℕ) (src : ℕ → BitVec 8) (n : ℕ) :
    Option (Mmu × ℤ) :=
  match map with
  | none => some (s, -eFAULT)
  | some map => copyToUserLoop writeBytes map dest src n (n + 1) s 0

/-- `copy_to_user` where the pages that it reaches may hold tables. -/
def copyToUserTables (s : Mmu) (map dest : ℕ) (src : ℕ → BitVec 8) (n : ℕ) : Option (Mmu × ℤ) :=
  copyToUserLoop writeMemory map dest src n (n + 1) s 0

/-- `dest`: the bytes copied so far. -/
def copyFromUserLoop (s : Mmu) (map src n : ℕ) :
    ℕ → (ℕ → BitVec 8) → ℕ → Option ((ℕ → BitVec 8) × ℤ)
  | 0, _, _ => none
  | fuel + 1, dest, copied =>
    if copied < n then
      let addr := (src + copied) % 2 ^ 64
      let paddr := s.vmmGetPhys map addr
      if paddr = 0 then some (dest, -eFAULT)
      else
        let len := toCopy src n copied
        copyFromUserLoop s map src n fuel
          (fun i => if copied ≤ i ∧ i < copied + len then s.byte (paddr + (i - copied)) else dest i)
          (copied + len)
    else some (dest, 0)

def copyFromUser (s : Mmu) (map : Option ℕ) (dest : ℕ → BitVec 8) (src n : ℕ) :
    Option ((ℕ → BitVec 8) × ℤ) :=
  match map with
  | none => some (dest, -eFAULT)
  | some map => copyFromUserLoop s map src n (n + 1) dest 0

/-- The physical address of the byte `k` of a user range. -/
def physAt (s : Mmu) (map start k : ℕ) : ℕ := s.vmmGetPhys map ((start + k) % 2 ^ 64)

/-- The bytes at which the loops look up a page. -/
def LookedUp (start k : ℕ) : Prop := k = 0 ∨ (start + k) % 4096 = 0

/-- No page is missing from the byte `i` to the byte `k`. -/
def ReachesFrom (s : Mmu) (map start i k : ℕ) : Prop :=
  i ≤ k ∧ ∀ j, i ≤ j → j ≤ k → LookedUp start j → s.physAt map start j ≠ 0

variable {s : Mmu} {map start n copied : ℕ}

theorem toCopy_eq (start n copied : ℕ) :
    toCopy start n copied = min (4096 - (start + copied) % 4096) (n - copied) := by
  have hoff : (start + copied) % 2 ^ 64 &&& 0xFFF = (start + copied) % 2 ^ 64 % 4096 :=
    Nat.and_two_pow_sub_one_eq_mod _ 12
  unfold toCopy
  omega

theorem toCopy_pos (start : ℕ) (h : copied < n) : 0 < toCopy start n copied := by
  rw [toCopy_eq]
  omega

theorem lookedUp_next (start : ℕ) (h : copied < n) :
    let next := copied + toCopy start n copied
    next ≤ n ∧ (next < n → LookedUp start next) := by
  rw [toCopy_eq]
  unfold LookedUp
  omega

section
variable (hp : s.physAt map start copied ≠ 0)
include hp

theorem physAt_chunk {i : ℕ} (hi : i < toCopy start n copied) :
    s.physAt map start (copied + i) = s.physAt map start copied + i ∧
      (0 < i → ¬ LookedUp start (copied + i)) := by
  rw [toCopy_eq] at hi
  have hadd : (start + (copied + i)) % 2 ^ 64 = (start + copied) % 2 ^ 64 + i := by omega
  constructor
  · unfold physAt at hp ⊢
    rw [hadd]
    rw [vmmGetPhys_eq] at hp ⊢
    rw [vmmGetPhys_eq]
    have hpage : s.walkPage map ((start + copied) % 2 ^ 64 + i) =
        s.walkPage map ((start + copied) % 2 ^ 64) := by
      apply walkPage_congr
      unfold pageSize
      omega
    rw [hpage]
    cases hw : s.walkPage map ((start + copied) % 2 ^ 64) with
    | none =>
      rw [hw] at hp
      exact absurd rfl hp
    | some w =>
      simp only [pageSize]
      omega
  · unfold LookedUp
    omega

theorem ReachesFrom.chunk {i : ℕ} (hi : i < toCopy start n copied) :
    s.ReachesFrom map start copied (copied + i) := by
  refine ⟨by omega, fun j h1 h2 hj => ?_⟩
  rcases Nat.eq_or_lt_of_le h1 with rfl | h1
  · exact hp
  · have := (physAt_chunk (n := n) hp (show j - copied < _ by omega)).2 (by omega)
    rw [show copied + (j - copied) = j by omega] at this
    exact absurd hj this

theorem reachesFrom_next {k : ℕ} (hk : copied + toCopy start n copied ≤ k) :
    s.ReachesFrom map start copied k ↔ s.ReachesFrom map start (copied + toCopy start n copied) k := by
  constructor
  · rintro ⟨-, h⟩
    exact ⟨hk, fun j h1 => h j (by omega)⟩
  · rintro ⟨-, h⟩
    refine ⟨by omega, fun j h1 h2 hj => ?_⟩
    by_cases hin : copied + toCopy start n copied ≤ j
    · exact h j hin h2 hj
    · have := (ReachesFrom.chunk (n := n) hp (show j - copied < _ by omega)).2 j
      exact this h1 (by omega) hj

end

/-- No page from the byte `i` on is missing. -/
def MappedFrom (s : Mmu) (map start n i : ℕ) : Prop :=
  ∀ k < n, i ≤ k → LookedUp start k → s.physAt map start k ≠ 0

theorem mappedFrom_next (hp : s.physAt map start copied ≠ 0) :
    s.MappedFrom map start n (copied + toCopy start n copied) ↔
      s.MappedFrom map start n copied := by
  constructor
  · intro h k hk hck hlk
    by_cases hin : copied + toCopy start n copied ≤ k
    · exact h k hk hin hlk
    · have := (ReachesFrom.chunk (n := n) hp (show k - copied < _ by omega)).2 k
      exact this hck (by omega) hlk
  · intro h k hk hck
    exact h k hk (by omega)

/-- The bytes written from the byte `i` on. -/
def Hits (s : Mmu) (map start n i a : ℕ) : Prop :=
  ∃ k < n, s.ReachesFrom map start i k ∧ s.physAt map start k = a

/-- The bytes reached from the byte `i` on were written, and 0 returned when no page is missing. -/
structure Copied (s u u' : Mmu) (map start n i : ℕ) (src : ℕ → BitVec 8) (r : ℤ) : Prop where
  result : r = 0 ↔ s.MappedFrom map start n i
  other : ∀ a, ¬ s.Hits map start n i a → u'.byte a = u.byte a
  hit : ∀ a, s.Hits map start n i a → ∃ k < n, s.physAt map start k = a ∧ u'.byte a = src k

/-- What `copy_to_user` does while its writes keep the tables (`I`). -/
theorem copyToUserLoop_spec {write : Mmu → ℕ → (ℕ → BitVec 8) → ℕ → Mmu} {I : Mmu → Prop} (u : Mmu)
    (src : ℕ → BitVec 8) (fuel : ℕ)
    (hwalk : ∀ u, I u → ∀ k < n, u.physAt map start k = s.physAt map start k)
    (hbyte : ∀ u p src len, (write u p src len).byte = (u.writeBytes p src len).byte)
    (hI : ∀ u src k, I u → k < n → s.ReachesFrom map start copied k → s.physAt map start k ≠ 0 →
      I (write u (s.physAt map start k) src (toCopy start n k)))
    (hu : I u) (hf : n - copied < fuel) (hl : copied < n → LookedUp start copied) :
    ∃ u' r, copyToUserLoop write map start src n fuel u copied = some (u', r) ∧ I u' ∧
      s.Copied u u' map start n copied src r := by
  induction fuel generalizing u copied with
  | zero => omega
  | succ fuel ih =>
    unfold copyToUserLoop
    by_cases hc : copied < n
    · rw [if_pos hc]
      change ∃ u' r, (if u.physAt map start copied = 0 then _ else copyToUserLoop write map start src n
        fuel (write u (u.physAt map start copied) _ _) _) = _ ∧ _
      rw [hwalk u hu copied hc]
      by_cases hp : s.physAt map start copied = 0
      · rw [if_pos hp]
        refine ⟨u, -eFAULT, rfl, hu, ?_, fun _ _ => rfl, ?_⟩
        · constructor
          · nofun
          · intro h
            exact absurd hp (h copied hc le_rfl (hl hc))
        · rintro a ⟨k, hk, hr, -⟩
          exact absurd hp (hr.2 copied le_rfl hr.1 (hl hc))
      · rw [if_neg hp]
        have hpos := toCopy_pos start hc
        have hnext := lookedUp_next start hc
        obtain ⟨u', r, he, hu', hr, hout, hin⟩ := ih
          (write u (s.physAt map start copied) (fun i => src (copied + i)) (toCopy start n copied))
          (fun u src k hu hk hk' => hI u src k hu hk ((reachesFrom_next hp hk'.1).mpr hk'))
          (hI u _ copied hu hc (ReachesFrom.chunk (n := n) hp hpos) hp) (by omega) hnext.2
        refine ⟨u', r, he, hu', ?_, ?_, ?_⟩
        · rw [hr, ← mappedFrom_next hp]
        · intro a ha
          have hrest : ¬ s.Hits map start n (copied + toCopy start n copied) a := by
            rintro ⟨k, hk, hk', rfl⟩
            exact ha ⟨k, hk, (reachesFrom_next hp hk'.1).mpr hk', rfl⟩
          rw [hout a hrest, hbyte]
          apply if_neg
          rintro ⟨h1, h2⟩
          have hi : a - s.physAt map start copied < toCopy start n copied := by omega
          refine ha ⟨_, by omega, ReachesFrom.chunk hp hi, ?_⟩
          rw [(physAt_chunk hp hi).1]
          omega
        · intro a ha
          by_cases hrest : s.Hits map start n (copied + toCopy start n copied) a
          · exact hin a hrest
          · obtain ⟨k, hk, hk', rfl⟩ := ha
            -- the byte is written in this turn and not again
            have hlt : k < copied + toCopy start n copied := by
              by_contra hge
              exact hrest ⟨k, hk, (reachesFrom_next hp (by omega)).mp hk', rfl⟩
            have hck := hk'.1
            have hi : k - copied < toCopy start n copied := by omega
            have hphysk := (physAt_chunk hp hi).1
            rw [show copied + (k - copied) = k by omega] at hphysk
            refine ⟨k, hk, rfl, ?_⟩
            rw [hout _ hrest, hbyte]
            change (if _ then _ else _) = _
            rw [if_pos (by omega)]
            congr 1
            omega
    · rw [if_neg hc]
      refine ⟨u, 0, rfl, hu, ?_, fun _ _ => rfl, ?_⟩
      · simp only [true_iff]
        intro k hk hck
        omega
      · rintro a ⟨k, hk, hr, -⟩
        have := hr.1
        omega

theorem physAt_of_entry {u : Mmu} (h : u.entry = s.entry) (k : ℕ) :
    u.physAt map start k = s.physAt map start k := by
  unfold physAt vmmGetPhys
  rw [h]

theorem copyToUser_spec (s : Mmu) (map start n : ℕ) (src : ℕ → BitVec 8) :
    ∃ s' r, s.copyToUser (some map) start src n = some (s', r) ∧ s'.entry = s.entry ∧
      s.Copied s s' map start n 0 src r :=
  copyToUserLoop_spec (I := fun u => u.entry = s.entry) s src (n + 1)
    (fun _ hu k _ => physAt_of_entry hu k) (fun _ _ _ _ => rfl) (fun _ _ _ hu _ _ _ => hu) rfl
    (by omega) fun _ => .inl rfl

theorem copyFromUserLoop_spec (s : Mmu) (map start n fuel : ℕ) (dest : ℕ → BitVec 8) (copied : ℕ)
    (hf : n - copied < fuel) (hl : copied < n → LookedUp start copied) :
    ∃ dest' r, copyFromUserLoop s map start n fuel dest copied = some (dest', r) ∧
      (r = 0 ↔ s.MappedFrom map start n copied) ∧ (r = 0 → ∀ k < n, dest' k =
        if copied ≤ k then s.byte (s.physAt map start k) else dest k) := by
  induction fuel generalizing dest copied with
  | zero => omega
  | succ fuel ih =>
    unfold copyFromUserLoop
    by_cases hc : copied < n
    · rw [if_pos hc]
      change ∃ dest' r, (if s.physAt map start copied = 0 then _ else _) = _ ∧ _
      by_cases hp : s.physAt map start copied = 0
      · rw [if_pos hp]
        refine ⟨dest, -eFAULT, rfl, ?_, fun hp => absurd hp (by decide)⟩
        constructor
        · nofun
        · intro h
          exact absurd hp (h copied hc le_rfl (hl hc))
      · rw [if_neg hp]
        have hpos := toCopy_pos start hc
        have hnext := lookedUp_next start hc
        obtain ⟨dest', r, he, hr, hbyte⟩ := ih _ (copied + toCopy start n copied) (by omega) hnext.2
        refine ⟨dest', r, he, hr.trans (mappedFrom_next hp), fun hr0 k hk => ?_⟩
        rw [hbyte hr0 k hk]
        by_cases hin : copied + toCopy start n copied ≤ k
        · rw [if_pos hin, if_pos (by omega)]
        · rw [if_neg hin]
          by_cases hck : copied ≤ k
          · have hchunk := (physAt_chunk (n := n) hp (show k - copied < _ by omega)).1
            rw [show copied + (k - copied) = k by omega] at hchunk
            rw [if_pos ⟨hck, by omega⟩, if_pos hck, hchunk]
            rfl
          · rw [if_neg (by omega), if_neg hck]
    · rw [if_neg hc]
      refine ⟨dest, 0, rfl, ?_, fun _ k hk => (if_neg (by omega)).symm⟩
      simp only [true_iff]
      intro k hk hck
      omega

/-- A page is not mapped where the loops look it up. -/
def Missing (s : Mmu) (map start n : ℕ) : Prop :=
  ∃ k < n, LookedUp start k ∧ s.physAt map start k = 0

theorem not_missing_iff : ¬ s.Missing map start n ↔ s.MappedFrom map start n 0 := by
  unfold Missing MappedFrom
  simp

section
variable (s : Mmu)

section
variable (map : Option ℕ)

end

/-- A user map whose kernel half maps the first huge page. -/
def kernelHalf : Mmu where
  pmm := ⟨fun _ => ⟨none, none, 0, 0, false⟩, fun _ => none, 0, []⟩
  entry := fun p i =>
    if p = 1 ∧ i = 256 then PtEntry.ofPage 2 ||| ptePresent ||| pteWritable
    else if p = 2 ∧ i = 0 then PtEntry.ofPage 3 ||| ptePresent ||| pteWritable
    else if p = 3 ∧ i = 0 then ptePresent ||| pteWritable ||| pteHuge else 0
  byte := fun _ => 0
  kernelMap := 0

/-- The byte that a process reads at an address. -/
def userLoad (map virt : ℕ) : Option (BitVec 8) :=
  (s.walkPage map virt).map fun w => s.byte (w.2 * pageSize + virt % pageSize)

/-- User code reads the address through an entry without `X86_PTE_SHARED`, from page `p`. -/
def ReadsPrivately (map virt p : ℕ) : Prop :=
  virt < userAddrLimit ∧ ∃ w, s.walkPage map virt = some w ∧ (∀ e ∈ w.1, e.has pteUser) ∧
    (∃ e, w.1.getLast? = some e ∧ e.has pteShared = false) ∧ w.2 = p

/-- The page holds a table that translates the range or a private address of `b`. -/
def Translates (a b dest n t : ℕ) : Prop :=
  (∃ k < n, t ∈ s.walkTables a ((dest + k) % 2 ^ 64)) ∨
    ∃ virt p, s.ReadsPrivately b virt p ∧ t ∈ s.walkTables b virt

variable {a b dest n : ℕ} (htables : ∀ k < n, s.ReachesFrom a dest 0 k →
  ¬ s.Translates a b dest n (s.physAt a dest k / pageSize))
include htables

theorem copyToUserTables_spec (src : ℕ → BitVec 8) :
    ∃ s' r, s.copyToUserTables a dest src n = some (s', r) ∧
      (∀ t, s.Translates a b dest n t → s'.entry t = s.entry t) ∧
      s.Copied s s' a dest n 0 src r := by
  refine copyToUserLoop_spec (I := fun u => ∀ t, s.Translates a b dest n t → u.entry t = s.entry t)
    s src (n + 1) ?_ (fun _ _ _ _ => rfl) ?_ (fun _ _ => rfl) (by omega) fun _ => .inl rfl
  · intro u hu k hk
    unfold physAt
    rw [vmmGetPhys_eq, vmmGetPhys_eq, walkPage_of_walkTables fun t ht => hu t (.inl ⟨k, hk, ht⟩)]
  · intro u src k hu hk hreach hp t ht
    rw [← hu t ht]
    funext i
    apply if_neg
    rintro ⟨h1, h2⟩
    have hpos := toCopy_pos dest hk
    -- a byte of the table that this turn writes
    let i := t * pageSize - s.physAt a dest k
    have hi : i < toCopy dest n k := by omega
    have hki : s.ReachesFrom a dest 0 (k + i) := by
      refine ⟨Nat.zero_le _, fun j h0 hj hl => ?_⟩
      by_cases hjk : j ≤ k
      · exact hreach.2 j h0 hjk hl
      · exact (ReachesFrom.chunk hp hi).2 j (by omega) hj hl
    have hnext := (lookedUp_next dest hk).1
    refine htables (k + i) (by omega) hki ?_
    rw [(physAt_chunk hp hi).1]
    convert ht using 1
    simp only [i, pageSize] at h1 ⊢
    omega

/-- A `copy_to_user` by `a` that reaches no table of its range and of the private addresses of `b`
leaves alone the bytes that `b` reads through entries without `X86_PTE_SHARED`, just when no page
that it reaches is such a page of `b`. -/
theorem copyToUser_keeps_private_iff :
    (∀ src, ∃ s' r, s.copyToUserTables a dest src n = some (s', r) ∧
        ∀ virt p, s.ReadsPrivately b virt p → s'.userLoad b virt = s.userLoad b virt) ↔
      ∀ k < n, s.ReachesFrom a dest 0 k →
        ∀ virt, ¬ s.ReadsPrivately b virt (s.physAt a dest k / pageSize) := by
  have hspec := copyToUserTables_spec s htables
  have hwalk {s' : Mmu} (hkeep : ∀ t, s.Translates a b dest n t → s'.entry t = s.entry t)
      {virt p : ℕ} (hread : s.ReadsPrivately b virt p) : s'.walkPage b virt = s.walkPage b virt :=
    walkPage_of_walkTables fun t ht => hkeep t (.inr ⟨virt, p, hread, ht⟩)
  constructor
  · intro h k hk hreach virt hread
    -- copy a byte other than the one that `b` reads there
    let target := s.physAt a dest k
    obtain ⟨s', r, he', hkeep⟩ := h fun _ => s.byte target + 1
    obtain ⟨_, r', he, hent, -, -, hin⟩ := hspec fun _ => s.byte target + 1
    cases he'.symm.trans he
    obtain ⟨k', -, -, hval⟩ := hin target ⟨k, hk, hreach, rfl⟩
    obtain ⟨hlim, w, hw, huser, hshared, hp⟩ := hread
    let virt' := virt / pageSize * pageSize + target % pageSize
    have hpage : virt' / pageSize = virt / pageSize := by
      simp only [virt', pageSize]
      omega
    have hoff : virt' % pageSize = target % pageSize := by
      simp only [virt', pageSize]
      omega
    have hw' : s.walkPage b virt' = some w := (walkPage_congr s b hpage).trans hw
    have hlim' : virt' < userAddrLimit := by
      simp only [virt', pageSize, userAddrLimit] at hlim ⊢
      omega
    have haddr : w.2 * pageSize + virt' % pageSize = target := by
      rw [hp, hoff]
      exact Nat.div_add_mod' target pageSize
    have hread' : s.ReadsPrivately b virt' w.2 := ⟨hlim', w, hw', huser, hshared, rfl⟩
    have hload := hkeep virt' w.2 hread'
    unfold userLoad at hload
    rw [hwalk hent hread', hw'] at hload
    simp only [map_some, haddr] at hload
    rw [hval] at hload
    simp at hload
  · intro h src
    obtain ⟨s', r, he, hent, -, hout, -⟩ := hspec src
    refine ⟨_, r, he, ?_⟩
    intro virt p hread
    unfold userLoad
    rw [hwalk hent hread]
    obtain ⟨hlim, w, hw, huser, hshared, hp⟩ := hread
    rw [hw]
    simp only [map_some]
    congr 1
    apply hout
    rintro ⟨k, hk, hreach, hka⟩
    have hpg : s.physAt a dest k / pageSize = w.2 := by
      rw [hka]
      simp only [pageSize]
      omega
    exact h k hk hreach virt ⟨hlim, w, hw, huser, hshared, hpg.symm⟩

end

/-- The maps 1 and 6 with one page at `0x1000` each, and a free block of eight pages. -/
def twoProcesses : Mmu where
  pmm :=
    { page := fun p => ⟨none, none, if p = 5 ∨ p = 10 then 1 else 0, if p = 16 then 3 else 0, p = 16⟩
      freeLists := fun o => if o = 3 then some 16 else none
      totalPages := 24
      outOfMemory := [] }
  entry := fun p i =>
    if p < 10 ∧ p % 5 ≠ 0 ∧ i = p % 5 / 4 then
      PtEntry.ofPage (p + 1) ||| ptePresent ||| pteWritable ||| pteUser
    else 0
  byte := fun _ => 0
  kernelMap := 0

theorem entry_twoProcesses (p i : ℕ) : (twoProcesses.entry p i).has ptePresent = false ∨
    (twoProcesses.entry p i).frame = p + 1 ∧ (twoProcesses.entry p i).has pteHuge = false := by
  change (PtEntry.has (if _ then _ else _) _ = _) ∨ PtEntry.frame (if _ then _ else _) = _ ∧
    PtEntry.has (if _ then _ else _) _ = _
  split_ifs with h
  · obtain ⟨hp, -⟩ := h
    right
    interval_cases p <;> decide +kernel
  · exact .inl rfl

/-- The process with the map 1 copies to its page, and the other keeps its own. -/
theorem copyToUser_keeps_private_apart : twoProcesses.userLoad 6 0x1000 = some 0 ∧
    ∀ src, ∃ s' r, twoProcesses.copyToUserTables 1 0x1000 src 8 = some (s', r) ∧
      ∀ virt p, twoProcesses.ReadsPrivately 6 virt p →
        s'.userLoad 6 virt = twoProcesses.userLoad 6 virt := by
  have hphys : ∀ k < 8, twoProcesses.physAt 1 0x1000 k / pageSize = 5 := by decide +kernel
  have hentry := entry_twoProcesses
  refine ⟨by decide +kernel, (copyToUser_keeps_private_iff _ (b := 6) ?_).mpr ?_⟩
  · intro k hk _
    rw [hphys k hk]
    have htables (map virt : ℕ) (hmap : map = 1 ∨ map = 6) : 5 ∉ twoProcesses.walkTables map virt := by
      unfold walkTables
      grind
    rintro (⟨j, -, hj⟩ | ⟨virt, p, -, hj⟩)
    · exact htables 1 _ (.inl rfl) hj
    · exact htables 6 _ (.inr rfl) hj
  · intro k hk _ virt
    rw [hphys k hk]
    rintro ⟨-, w, hw, -, -, hp⟩
    unfold walkPage at hw
    grind

/-- After a clone, a `copy_to_user` by the parent changes what the child reads. -/
theorem copyToUser_changes_child :
    ∃ s child s', twoProcesses.mmuCloneMap 1 = some (s, some child) ∧
      s.copyToUserTables 1 0x1000 (fun _ => 1) 1 = some (s', 0) ∧
      (∃ p, s.ReadsPrivately child 0x1000 p) ∧
      s'.userLoad child 0x1000 ≠ s.userLoad child 0x1000 := by
  have hrun : ((twoProcesses.mmuCloneMap 1).bind fun r => r.2.bind fun child =>
      (r.1.copyToUserTables 1 0x1000 (fun _ => 1) 1).map fun r' =>
        (r'.2, (r.1.walkPage child 0x1000).map fun w =>
          (w.1.all (·.has pteUser), w.1.getLast?.map (·.has pteShared)),
        r.1.userLoad child 0x1000, r'.1.userLoad child 0x1000)) =
      some (0, some (true, some false), some 0, some 1) := by decide +kernel
  simp only [bind_eq_some_iff, map_eq_some_iff, Prod.mk.injEq] at hrun
  obtain ⟨⟨s, _⟩, hclone, child, rfl, ⟨s', _⟩, hcopy, rfl, hwalk, hold, hnew⟩ := hrun
  obtain ⟨w, hw, huser, e, hlast, hshared⟩ := hwalk
  refine ⟨s, child, s', hclone, hcopy, ⟨w.2, by decide, w, hw, ?_, ⟨e, hlast, hshared⟩, rfl⟩, ?_⟩
  · exact List.all_eq_true.mp huser
  · rw [hold, hnew]
    decide

end Mmu
end Doppio
