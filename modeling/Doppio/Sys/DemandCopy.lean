import Doppio.Sys.UserCopy

/-! `copy_to_user` and `copy_from_user` beside an access of the process, for which
`handle_page_fault` maps an absent page. -/
namespace Doppio.DemandCopy
open Mmu

/-- A VMA's rights, and the byte of a new page at an address: of the file, or zero. -/
structure Area where
  read : Bool
  write : Bool
  fill : ℕ → BitVec 8

structure Process where
  mmu : Mmu
  map : ℕ
  /-- the VMA that holds an address -/
  vma : ℕ → Option Area

variable (u : Process) (start n : ℕ)

/-- Byte `k` of a range as the process sees it, after a fault. -/
def Process.userByte (k : ℕ) : Option (BitVec 8) :=
  if u.mmu.physAt u.map start k ≠ 0 then some (u.mmu.byte (u.mmu.physAt u.map start k))
  else (u.vma (start + k)).map (·.fill (start + k))

def Process.Within (right : Area → Bool) : Prop := ∀ k < n, ∃ v ∈ u.vma (start + k), right v

/-- `copy_from_user` delivers what the process would read. -/
def Process.ReadsUser (dest : ℕ → BitVec 8) : Prop :=
  ∃ dest', u.mmu.copyFromUser (some u.map) dest start n = some (dest', 0) ∧
    ∀ k < n, u.userByte start k = some (dest' k)

/-- After `copy_to_user` the process reads what was stored last at each byte. -/
def Process.WritesUser (src : ℕ → BitVec 8) : Prop :=
  ∃ s', u.mmu.copyToUser (some u.map) start src n = some (s', 0) ∧
    ∀ k < n, ∃ j < n, u.mmu.physAt u.map start j = u.mmu.physAt u.map start k ∧
      Process.userByte { u with mmu := s' } start k = some (src j)

variable {u start n}

theorem physAt_ne_zero {s : Mmu} {map : ℕ} (h : s.MappedFrom map start n 0) {k : ℕ} (hk : k < n) :
    s.physAt map start k ≠ 0 := by
  -- the byte where the page of the byte `k` is looked up
  let j := k - min k ((start + k) % 4096)
  have hj : LookedUp start j := by
    unfold LookedUp
    omega
  have hpage := h j (by omega) (Nat.zero_le j) hj
  have hlt : k - j < toCopy start n j := by
    rw [toCopy_eq]
    omega
  have hk' := (physAt_chunk hpage hlt).1
  rw [show j + (k - j) = k by omega] at hk'
  omega

/-- The two copies serve every range with the right, just when none of its pages is missing. -/
theorem userCopies_serve_iff (u : Process) (start n : ℕ) (buf : ℕ → BitVec 8) :
    ((u.Within start n Area.read → u.ReadsUser start n buf) ↔
        (u.Within start n Area.read → ¬ u.mmu.Missing u.map start n)) ∧
      ((u.Within start n Area.write → u.WritesUser start n buf) ↔
        (u.Within start n Area.write → ¬ u.mmu.Missing u.map start n)) := by
  constructor
  · refine imp_congr_right fun _ => ?_
    obtain ⟨dest', r, he, hr, hbyte⟩ :=
      copyFromUserLoop_spec u.mmu u.map start n (n + 1) buf 0 (by omega) fun _ => .inl rfl
    rw [not_missing_iff, ← hr]
    constructor
    · rintro ⟨d, hd, -⟩
      exact (Prod.mk.inj (Option.some.inj (he.symm.trans hd))).2
    · rintro rfl
      refine ⟨dest', he, fun k hk => ?_⟩
      rw [hbyte rfl k hk]
      simp [Process.userByte, physAt_ne_zero (hr.mp rfl) hk]
  · refine imp_congr_right fun _ => ?_
    obtain ⟨s', r, he, hent, hr, -, hin⟩ := copyToUser_spec u.mmu u.map start n buf
    rw [not_missing_iff, ← hr]
    constructor
    · rintro ⟨s', hs', -⟩
      exact (Prod.mk.inj (Option.some.inj (he.symm.trans hs'))).2
    · rintro rfl
      have hmapped := hr.mp rfl
      refine ⟨_, he, fun k hk => ?_⟩
      have hreach : u.mmu.ReachesFrom u.map start 0 k :=
        ⟨Nat.zero_le k, fun j h0 hj => hmapped j (by omega) h0⟩
      obtain ⟨j, hj, hphys, hval⟩ := hin _ ⟨k, hk, hreach, rfl⟩
      refine ⟨j, hj, hphys, ?_⟩
      have hne := physAt_ne_zero hmapped hk
      simp only [Process.userByte, physAt_of_entry hent, hne, ne_eq]
      exact congrArg some hval

def untouched : Process where
  mmu := kernelHalf
  map := 1
  vma := fun a => if a / 4096 = 1 then some ⟨true, true, fun _ => 0⟩ else none

/-- The process would read zeros; the copy fails. -/
theorem copyFromUser_misses_page : untouched.Within 0x1000 8 Area.read ∧
    untouched.userByte 0x1000 0 = some 0 ∧
    (kernelHalf.copyFromUser (some 1) (fun _ => 1) 0x1000 8).map Prod.snd = some (-eFAULT) := by
  refine ⟨fun k hk => ⟨_, if_pos (by omega), rfl⟩, ?_, ?_⟩
  · decide +kernel
  · decide +kernel

end Doppio.DemandCopy
