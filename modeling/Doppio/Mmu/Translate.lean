import Doppio.Mmu.PageTable

/-! What the page tables translate an address to, page by page. -/
namespace Doppio
open Nat

theorem PtEntry.addr_eq (e : PtEntry) : e.addr = e.frame * 4096 := by
  have hdvd : 4096 ∣ (e &&& pageAddrMask).toNat := by
    rw [BitVec.toNat_and, show pageAddrMask.toNat = (2 ^ 40 - 1) * 2 ^ 12 by rfl,
      ← shiftLeft_eq, Nat.and_comm]
    exact dvd_of_mod_eq_zero (by
      rw [show (4096 : ℕ) = 2 ^ 12 by rfl, and_mod_two_pow, shiftLeft_eq, mul_mod_left, zero_and])
  unfold addr frame
  omega

theorem PtEntry.ofPage_frame (e : PtEntry) : ofPage e.frame = e &&& pageAddrMask := by
  unfold ofPage
  rw [← e.addr_eq]
  unfold addr
  simp

theorem shiftRight_and (v n : ℕ) : v >>> n &&& 0x1FF = v / 2 ^ n % 512 := by
  rw [shiftRight_eq_div_pow, show 0x1FF = 2 ^ 9 - 1 by rfl, and_two_pow_sub_one_eq_mod]

theorem pml4Idx_eq (v : ℕ) : pml4Idx v = v / 2 ^ 39 % 512 := shiftRight_and v 39

theorem pdptIdx_eq (v : ℕ) : pdptIdx v = v / 2 ^ 30 % 512 := shiftRight_and v 30

theorem pdIdx_eq (v : ℕ) : pdIdx v = v / 2 ^ 21 % 512 := shiftRight_and v 21

theorem ptIdx_eq (v : ℕ) : ptIdx v = v / 2 ^ 12 % 512 := shiftRight_and v 12

namespace Mmu

/-- The entries that translate an address, top down, and the physical page; `none`: not mapped. -/
def walkPage (s : Mmu) (map virt : ℕ) : Option (List PtEntry × ℕ) :=
  let e0 := s.entry map (pml4Idx virt)
  let e1 := s.entry e0.frame (pdptIdx virt)
  let e2 := s.entry e1.frame (pdIdx virt)
  let e3 := s.entry e2.frame (ptIdx virt)
  if !e0.has ptePresent then none
  else if !e1.has ptePresent then none
  else if !e2.has ptePresent then none
  else if e2.has pteHuge then
    some ([e0, e1, e2], (e2 &&& 0xFFFFFFFE00000#64).toNat / pageSize + virt / pageSize % 512)
  else if !e3.has ptePresent then none
  else some ([e0, e1, e2, e3], e3.frame)

/-- The tables that the walk for an address reads. -/
def walkTables (s : Mmu) (map virt : ℕ) : List ℕ :=
  let e0 := s.entry map (pml4Idx virt)
  let e1 := s.entry e0.frame (pdptIdx virt)
  let e2 := s.entry e1.frame (pdIdx virt)
  if !e0.has ptePresent then [map]
  else if !e1.has ptePresent then [map, e0.frame]
  else if !e2.has ptePresent || e2.has pteHuge then [map, e0.frame, e1.frame]
  else [map, e0.frame, e1.frame, e2.frame]

theorem walkPage_of_walkTables {s u : Mmu} {map virt : ℕ}
    (h : ∀ t ∈ s.walkTables map virt, u.entry t = s.entry t) :
    u.walkPage map virt = s.walkPage map virt := by
  unfold walkTables at h
  unfold walkPage
  grind

theorem walkPage_congr (s : Mmu) (map : ℕ) {v w : ℕ} (h : v / pageSize = w / pageSize) :
    s.walkPage map v = s.walkPage map w := by
  have hidx (k : ℕ) : v / 2 ^ (12 + k) = w / 2 ^ (12 + k) := by
    rw [pow_add, ← Nat.div_div_eq_div_mul, ← Nat.div_div_eq_div_mul]
    exact congrArg (· / 2 ^ k) h
  have h0 : pml4Idx v = pml4Idx w := by rw [pml4Idx_eq, pml4Idx_eq, hidx 27]
  have h1 : pdptIdx v = pdptIdx w := by rw [pdptIdx_eq, pdptIdx_eq, hidx 18]
  have h2 : pdIdx v = pdIdx w := by rw [pdIdx_eq, pdIdx_eq, hidx 9]
  have h3 : ptIdx v = ptIdx w := by rw [ptIdx_eq, ptIdx_eq, hidx 0]
  unfold walkPage
  rw [h0, h1, h2, h3, h]

theorem vmmGetPhys_eq (s : Mmu) (map virt : ℕ) :
    s.vmmGetPhys map virt = match s.walkPage map virt with
      | some (_, p) => p * pageSize + virt % pageSize | none => 0 := by
  have hmod : virt &&& (pageSize - 1) = virt % pageSize :=
    and_two_pow_sub_one_eq_mod virt 12
  have hmod' : virt &&& 0x1FFFFF = virt % 2 ^ 21 := and_two_pow_sub_one_eq_mod virt 21
  have hdvd (e : PtEntry) : 4096 ∣ (e &&& 0xFFFFFFFE00000#64).toNat := by
    have hmask : (0xFFFFFFFE00000#64) = pageAddrMask &&& 0xFFFFFFFE00000#64 := by decide
    have := PtEntry.addr_eq (e &&& 0xFFFFFFFE00000#64)
    unfold PtEntry.addr at this
    rw [BitVec.and_assoc, BitVec.and_comm _ pageAddrMask, ← hmask] at this
    rw [this]
    exact Nat.dvd_mul_left _ _
  unfold vmmGetPhys walkPage
  simp only
  split_ifs with h0 h1 h2 h3 h4
  · rfl
  · rfl
  · rfl
  · have := hdvd (s.entry (s.entry (s.entry map (pml4Idx virt)).frame (pdptIdx virt)).frame
      (pdIdx virt))
    simp only [pageSize]
    omega
  · rfl
  · rw [hmod, PtEntry.addr_eq]
    rfl

end Mmu
end Doppio
