import Mathlib.Data.Nat.Bitwise
import Mathlib.Tactic.IntervalCases

/-! Entries of the x86-64 page tables, as `kernel/arch/x86_64/mmu.c` builds and tests them. -/
namespace Doppio
open BitVec

abbrev PtEntry := BitVec 64

def ptePresent : PtEntry := 1#64 <<< 0
def pteWritable : PtEntry := 1#64 <<< 1
def pteUser : PtEntry := 1#64 <<< 2
def ptePwt : PtEntry := 1#64 <<< 3
def ptePcd : PtEntry := 1#64 <<< 4
def pteHuge : PtEntry := 1#64 <<< 7
def pteCow : PtEntry := 1#64 <<< 9
def pteShared : PtEntry := 1#64 <<< 10
def pteNx : PtEntry := 1#64 <<< 63

def pageAddrMask : PtEntry := 0x000ffffffffff000#64

namespace PtEntry

def has (e flag : PtEntry) : Bool := e &&& flag ≠ 0

variable (e : PtEntry)

def frame : ℕ := (e &&& pageAddrMask).toNat / 4096

def ofPage (p : ℕ) : PtEntry := BitVec.ofNat 64 (p * 4096)

theorem getLsbD_pageAddrMask {k : ℕ} (hk : k < 64) :
    pageAddrMask.getLsbD k = decide (12 ≤ k ∧ k < 52) := by
  interval_cases k <;> rfl

theorem has_or (e g flag : PtEntry) : has (e ||| g) flag = (e.has flag || g.has flag) := by
  unfold has
  rw [and_or_distrib_right]
  simp [or_eq_zero_iff]

theorem has_and (e g flag : PtEntry) : has (e &&& g) flag = e.has (g &&& flag) := by
  unfold has
  rw [BitVec.and_assoc]

@[simp] theorem has_zero : e.has 0 = false := by
  simp [has]

@[simp] theorem zero_has (flag : PtEntry) : has 0 flag = false := by
  simp [has]

theorem frame_or {g : PtEntry} (hg : g &&& pageAddrMask = 0) :
    frame (e ||| g) = e.frame := by
  unfold frame
  rw [and_or_distrib_right, hg]
  simp

@[simp] theorem frame_mask : frame (e &&& pageAddrMask) = e.frame := by
  unfold frame
  rw [BitVec.and_assoc, BitVec.and_self]

theorem ofPage_and_mask {p : ℕ} (hp : p < 2 ^ 40) : ofPage p &&& pageAddrMask = ofPage p := by
  apply eq_of_getLsbD_eq
  intro k hk
  rw [getLsbD_and, getLsbD_pageAddrMask hk]
  by_cases hin : 12 ≤ k ∧ k < 52
  · simp [hin]
  · -- the bits below 12 and from 52 on of a page's address are clear
    unfold ofPage
    rw [getLsbD_ofNat, show p * 4096 = p <<< 12 by rw [Nat.shiftLeft_eq],
      Nat.testBit_shiftLeft]
    rcases Nat.lt_or_ge k 12 with h12 | h12
    · have : ¬ 12 ≤ k := by omega
      simp [this]
    · have hlt : p < 2 ^ (k - 12) :=
        lt_of_lt_of_le hp (Nat.pow_le_pow_right (by decide) (by omega))
      simp [Nat.testBit_lt_two_pow hlt]

@[simp] theorem frame_ofPage {p : ℕ} (hp : p < 2 ^ 40) : frame (ofPage p) = p := by
  unfold frame
  rw [ofPage_and_mask hp]
  unfold ofPage
  rw [toNat_ofNat]
  omega

theorem ofPage_has {p : ℕ} (hp : p < 2 ^ 40) {flag : PtEntry} (hf : pageAddrMask &&& flag = 0) :
    (ofPage p).has flag = false := by
  rw [← ofPage_and_mask hp, has_and, hf, has_zero]

theorem mask_has {flag : PtEntry} (hf : pageAddrMask &&& flag = 0) :
    has (e &&& pageAddrMask) flag = false := by
  rw [has_and, hf, has_zero]

theorem compl_mask_has {flag : PtEntry} (hf : ~~~pageAddrMask &&& flag = flag) :
    has (e &&& ~~~pageAddrMask) flag = e.has flag := by
  rw [has_and, hf]

theorem compl_mask_and_mask : (e &&& ~~~pageAddrMask) &&& pageAddrMask = 0 := by
  rw [BitVec.and_assoc]
  simp

theorem mask_or_compl : (e &&& pageAddrMask) ||| (e &&& ~~~pageAddrMask) = e := by
  apply eq_of_getLsbD_eq
  intro i hi
  simp only [getLsbD_or, getLsbD_and, getLsbD_not, hi, decide_true,
    Bool.true_and]
  cases e.getLsbD i <;> cases pageAddrMask.getLsbD i <;> rfl

end PtEntry
end Doppio
