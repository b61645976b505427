import Mathlib.Data.Nat.Bitwise
import Mathlib.Tactic
import Mathlib.Order.CompletePartialOrder

/-! Dyadic blocks: aligned runs of `2 ^ order` numbers, and the buddies they are halves with. -/
namespace Buddy
open Nat

structure Block where
  head : ℕ
  order : ℕ
  deriving DecidableEq

namespace Block

def pages (b : Block) : Set ℕ := {x | b.head ≤ x ∧ x < b.head + 2 ^ b.order}

def Aligned (b : Block) : Prop := 2 ^ b.order ∣ b.head

/-- The other half of the block twice as large. -/
def buddy (b : Block) : Block := ⟨b.head ^^^ 2 ^ b.order, b.order⟩

/-- The block of a block and its buddy. -/
def parent (b : Block) : Block := ⟨min b.head b.buddy.head, b.order + 1⟩

variable {b c : Block} {x : ℕ}

theorem mem_pages : x ∈ b.pages ↔ b.head ≤ x ∧ x < b.head + 2 ^ b.order := Iff.rfl

theorem head_mem (b : Block) : b.head ∈ b.pages := by
  constructor
  · exact le_rfl
  · exact Nat.lt_add_of_pos_right (Nat.two_pow_pos _)

theorem Aligned.mem_iff (hb : b.Aligned) : x ∈ b.pages ↔ x / 2 ^ b.order = b.head / 2 ^ b.order := by
  obtain ⟨k, hk⟩ := hb
  have hpos := Nat.two_pow_pos b.order
  rw [mem_pages, hk, Nat.mul_div_cancel_left _ hpos, Nat.div_eq_iff hpos, mul_comm k]
  omega

theorem xor_one (k : ℕ) : k ^^^ 1 = if k % 2 = 0 then k + 1 else k - 1 := by
  have hmod : (k ^^^ 1) % 2 = (k + 1) % 2 := xor_mod_two_eq
  have hdiv : (k ^^^ 1) / 2 = k / 2 := by
    rw [xor_div_two]
    simp
  split_ifs <;> omega

theorem mul_xor (n k : ℕ) : 2 ^ n * k ^^^ 2 ^ n = 2 ^ n * (k ^^^ 1) := by
  have h := @shiftLeft_xor_distrib n k 1
  rw [shiftLeft_eq, shiftLeft_eq, shiftLeft_eq, one_mul] at h
  rw [mul_comm, mul_comm (2 ^ n), h]

theorem Aligned.halves (hb : b.Aligned) :
    (b.buddy.head = b.head + 2 ^ b.order ∧ 2 ^ (b.order + 1) ∣ b.head) ∨
      (b.head = b.buddy.head + 2 ^ b.order ∧ 2 ^ (b.order + 1) ∣ b.buddy.head) := by
  obtain ⟨k, hk⟩ := hb
  have hbuddy : b.buddy.head = 2 ^ b.order * (k ^^^ 1) := by
    rw [buddy, hk, mul_xor]
  rw [hbuddy, hk, xor_one]
  split_ifs with h
  · left
    refine ⟨by ring, mul_dvd_mul_left _ (dvd_of_mod_eq_zero h)⟩
  · right
    obtain ⟨j, rfl⟩ : ∃ j, k = 2 * j + 1 := ⟨k / 2, by omega⟩
    rw [Nat.add_sub_cancel]
    exact ⟨by ring, mul_dvd_mul_left _ (dvd_mul_right 2 j)⟩

theorem Aligned.buddy (hb : b.Aligned) : b.buddy.Aligned := by
  obtain ⟨k, hk⟩ := hb
  refine ⟨k ^^^ 1, ?_⟩
  change b.head ^^^ 2 ^ b.order = 2 ^ b.order * (k ^^^ 1)
  rw [hk, mul_xor]

theorem buddy_buddy (b : Block) : b.buddy.buddy = b := by
  simp [Block.buddy]

section
variable (hb : b.Aligned)
include hb

theorem Aligned.parent : b.parent.Aligned := by
  change 2 ^ (b.order + 1) ∣ min b.head b.buddy.head
  rcases hb.halves with ⟨h, hd⟩ | ⟨h, hd⟩
  · rwa [min_eq_left (by omega)]
  · rwa [min_eq_right (by omega)]

theorem Aligned.mem_parent :
    x ∈ b.parent.pages ↔ x ∈ b.pages ∨ x ∈ b.buddy.pages := by
  have ho : b.buddy.order = b.order := rfl
  simp only [mem_pages, Block.parent, ho]
  rcases hb.halves with ⟨h, -⟩ | ⟨h, -⟩ <;> omega

theorem Aligned.disjoint_buddy : Disjoint b.pages b.buddy.pages := by
  rw [Set.disjoint_left]
  have ho : b.buddy.order = b.order := rfl
  simp only [mem_pages, ho]
  rcases hb.halves with ⟨h, -⟩ | ⟨h, -⟩ <;> omega

theorem Aligned.head_eq (hc : c.Aligned) (hle : b.order ≤ c.order)
    (hmem : c.head ∈ b.pages) : b.head = c.head := by
  have hdvd : 2 ^ b.order ∣ c.head := (pow_dvd_pow 2 hle).trans hc
  rw [hb.mem_iff] at hmem
  rw [← Nat.div_mul_cancel hdvd, hmem, Nat.div_mul_cancel hb]

theorem Aligned.parent_subset (hc : c.Aligned) (hlt : c.order < b.order)
    (hmem : c.head ∈ b.pages) : c.parent.pages ⊆ b.pages := by
  intro x hx
  have hcp : c.head ∈ c.parent.pages := hc.mem_parent.mpr (.inl c.head_mem)
  rw [hc.parent.mem_iff] at hx hcp
  rw [hb.mem_iff] at hmem ⊢
  obtain ⟨k, hk⟩ := Nat.exists_eq_add_of_le (succ_le_of_lt hlt)
  have hpow : 2 ^ b.order = 2 ^ c.parent.order * 2 ^ k := by
    rw [hk, pow_add]
    rfl
  rw [hpow, ← Nat.div_div_eq_div_mul] at hmem ⊢
  rw [hx, ← hcp]
  exact hmem

end

theorem lower_half {p o : ℕ} (h : 2 ^ (o + 1) ∣ p) :
    (mk p o).Aligned ∧ (mk p o).buddy = ⟨p + 2 ^ o, o⟩ ∧ (mk p o).parent = ⟨p, o + 1⟩ := by
  have hal : (mk p o).Aligned := (pow_dvd_pow 2 (le_succ o)).trans h
  have hhead : (mk p o).buddy.head = p + 2 ^ o := by
    rcases hal.halves with ⟨he, -⟩ | ⟨he, hd⟩
    · exact he
    · have hdvd : 2 ^ (o + 1) ∣ 2 ^ o := (Nat.dvd_add_right hd).mp (he ▸ h)
      exact absurd (le_of_dvd (Nat.two_pow_pos o) hdvd)
        (not_le.mpr (Nat.pow_lt_pow_right (by decide) (lt_succ_self o)))
  refine ⟨hal, ?_, ?_⟩
  · rw [← hhead]
    rfl
  · rw [parent, hhead, min_eq_left (le_add_right _ _)]

theorem eq_of_head (hh : b.head = c.head) (ho : b.order = c.order) : b = c := by
  cases b
  cases c
  exact congr (congrArg mk hh) ho

end Block

/-- Blocks below order `M` that are apart, no two of them buddies that could be one block. -/
structure Coalesced (M : ℕ) (bs : Set Block) : Prop where
  order_lt : ∀ b ∈ bs, b.order < M
  aligned : ∀ b ∈ bs, b.Aligned
  apart : ∀ b ∈ bs, ∀ c ∈ bs, ∀ x ∈ b.pages, x ∈ c.pages → b = c
  buddies : ∀ b ∈ bs, b.order + 1 < M → b.buddy ∉ bs

variable {M : ℕ} {A B : Set Block} {b c : Block}

/-- An aligned block that coalesced blocks fill has none of them strictly inside. -/
theorem Coalesced.le_order (h : Coalesced M A) (hc : c.Aligned) (hM : c.order < M)
    (hcov : ∀ x ∈ c.pages, ∃ b ∈ A, x ∈ b.pages) (hb : b ∈ A) (hmem : b.head ∈ c.pages) :
    c.order ≤ b.order := by
  induction hk : b.order using Nat.strong_induction_on generalizing b with
  | _ k ih =>
    subst hk
    by_contra hlt
    rw [not_le] at hlt
    have hal := h.aligned b hb
    have hq : b.buddy.head ∈ c.pages :=
      hc.parent_subset hal hlt hmem (hal.mem_parent.mpr (.inr b.buddy.head_mem))
    obtain ⟨d, hd, hdq⟩ := hcov _ hq
    have hdal := h.aligned d hd
    rcases Nat.lt_or_ge b.order d.order with hgt | hle
    · -- a larger block around the buddy would hold the block too
      have hbd : b.head ∈ d.pages := by
        apply hdal.parent_subset hal.buddy hgt hdq
        rw [hal.buddy.mem_parent, Block.buddy_buddy]
        exact .inr b.head_mem
      rw [h.apart b hb d hd _ b.head_mem hbd] at hgt
      exact lt_irrefl _ hgt
    · have he : d.head = b.buddy.head := hdal.head_eq hal.buddy hle hdq
      rcases hle.lt_or_eq with hlt' | heq
      · exact absurd (ih _ hlt' hd (he ▸ hq) rfl) (by omega)
      · have hdb : d = b.buddy := Block.eq_of_head he heq
        exact h.buddies b hb (by omega) (hdb ▸ hd)

theorem Coalesced.subset (hA : Coalesced M A) (hB : Coalesced M B)
    (hAB : ∀ x, (∃ b ∈ A, x ∈ b.pages) ↔ ∃ b ∈ B, x ∈ b.pages) : A ⊆ B := by
  intro b hb
  obtain ⟨c, hc, hbc⟩ := (hAB _).mp ⟨b, hb, b.head_mem⟩
  have hbal := hA.aligned b hb
  have hcal := hB.aligned c hc
  have hle : c.order ≤ b.order :=
    hA.le_order hcal (hB.order_lt c hc) (fun x hx => (hAB x).mpr ⟨c, hc, hx⟩) hb hbc
  have he : c.head = b.head := hcal.head_eq hbal hle hbc
  have hge : b.order ≤ c.order :=
    hB.le_order hbal (hA.order_lt b hb) (fun x hx => (hAB x).mp ⟨b, hb, hx⟩) hc (he ▸ b.head_mem)
  exact Block.eq_of_head he (le_antisymm hle hge) ▸ hc

end Buddy
