import Mathlib.Data.Nat.Bitwise
import Mathlib.Tactic.IntervalCases

/-! Buffers of bytes with little-endian numbers, copies and bits in them. -/
namespace Bytes
open Function Nat

abbrev Buf := ℕ → BitVec 8

/-- The number in the `n` bytes from `off` on. -/
def le (b : Buf) (off : ℕ) : ℕ → ℕ
  | 0 => 0
  | n + 1 => (b off).toNat + 256 * le b (off + 1) n

def putLe (b : Buf) (off n v : ℕ) : Buf := fun i =>
  if off ≤ i ∧ i < off + n then BitVec.ofNat 8 (v / 256 ^ (i - off)) else b i

def splice (b : Buf) (off len : ℕ) (src : Buf) : Buf := fun i =>
  if off ≤ i ∧ i < off + len then src (i - off) else b i

variable {b b' : Buf} {off off' n n' v i j : ℕ}

theorem le_lt (b : Buf) (off n : ℕ) : le b off n < 256 ^ n := by
  induction n generalizing off with
  | zero => simp [le]
  | succ n ih =>
    have hrest := ih (off + 1)
    rw [le]
    omega

theorem le_congr (h : ∀ i, off ≤ i → i < off + n → b i = b' i) : le b off n = le b' off n := by
  induction n generalizing off with
  | zero => rfl
  | succ n ih =>
    rw [le, le, h off (le_refl _) (by omega), ih fun i hi hlt => h i (by omega) (by omega)]

theorem le_shift (b : Buf) (base off n : ℕ) :
    le (fun i => b (base + i)) off n = le b (base + off) n := by
  induction n generalizing off with
  | zero => rfl
  | succ n ih => rw [le, le, ih, add_assoc]

theorem putLe_of_lt (h : i < off) : putLe b off n v i = b i := if_neg (by omega)

theorem putLe_of_le (h : off + n ≤ i) : putLe b off n v i = b i := if_neg (by omega)

variable {src : Buf}

theorem splice_of_mem (h : off ≤ i) (h' : i < off + n) :
    splice b off n src i = src (i - off) := if_pos ⟨h, h'⟩

theorem splice_of_lt (h : i < off) : splice b off n src i = b i := if_neg (by omega)

theorem splice_of_le (h : off + n ≤ i) : splice b off n src i = b i :=
  if_neg (by omega)

theorem le_digits (h : v < 256 ^ n)
    (hb : ∀ k < n, b (off + k) = BitVec.ofNat 8 (v / 256 ^ k)) : le b off n = v := by
  induction n generalizing off v with
  | zero =>
    simp only [pow_zero, lt_one_iff] at h
    rw [le, h]
  | succ n ih =>
    have hhead := hb 0 (succ_pos n)
    rw [add_zero, pow_zero] at hhead
    have hrest : le b (off + 1) n = v / 256 := by
      refine ih (Nat.div_lt_of_lt_mul (by rwa [pow_succ, mul_comm] at h)) fun k hk => ?_
      rw [Nat.div_div_eq_div_mul, ← pow_succ', add_assoc, add_comm 1 k]
      exact hb (k + 1) (by omega)
    rw [le, hhead, BitVec.toNat_ofNat]
    omega

theorem le_putLe_self (h : v < 256 ^ n) : le (putLe b off n v) off n = v := by
  refine le_digits h fun k hk => ?_
  rw [putLe, if_pos (by omega), Nat.add_sub_cancel_left]

theorem le_putLe_of_disjoint (h : off' + n' ≤ off ∨ off + n ≤ off') :
    le (putLe b off n v) off' n' = le b off' n' := by
  refine le_congr fun i hi hlt => ?_
  rcases h with h | h
  · exact putLe_of_lt (by omega)
  · exact putLe_of_le (by omega)

theorem le_splice (h : off ≤ off') (h' : off' + n' ≤ off + n) :
    le (splice b off n src) off' n' = le src (off' - off) n' := by
  induction n' generalizing off' with
  | zero => rfl
  | succ k ih =>
    rw [le, splice_of_mem h (by omega), ih (by omega) (by omega)]
    congr 3
    omega

theorem le_splice_of_disjoint (h : off' + n' ≤ off ∨ off + n ≤ off') :
    le (splice b off n src) off' n' = le b off' n' := by
  refine le_congr fun i hi hlt => ?_
  rcases h with h | h
  · exact splice_of_lt (by omega)
  · exact splice_of_le (by omega)

variable (b : Buf)

def bit (i : ℕ) : Bool := (b (i / 8)).getLsbD (i % 8)

def setBit (i : ℕ) : Buf :=
  update b (i / 8) (b (i / 8) ||| 1#8 <<< (i % 8))

def clearBit (i : ℕ) : Buf :=
  update b (i / 8) (b (i / 8) &&& ~~~(1#8 <<< (i % 8)))

theorem getLsbD_one_shiftLeft (hi : i < 8) (hj : j < 8) :
    (1#8 <<< i).getLsbD j = decide (j = i) := by
  interval_cases i <;> interval_cases j <;> rfl

theorem bit_setBit (i j : ℕ) : bit (setBit b i) j = (bit b j || decide (j = i)) := by
  unfold bit setBit
  by_cases hbyte : j / 8 = i / 8
  · rw [hbyte, update_self, BitVec.getLsbD_or,
      getLsbD_one_shiftLeft (mod_lt _ (by omega)) (mod_lt _ (by omega))]
    congr 2
    exact propext ⟨fun h => by omega, fun h => by rw [h]⟩
  · rw [update_of_ne hbyte]
    have hne : j ≠ i := fun h => hbyte (by rw [h])
    simp [hne]

theorem bit_clearBit (i j : ℕ) :
    bit (clearBit b i) j = (bit b j && !decide (j = i)) := by
  unfold bit clearBit
  by_cases hbyte : j / 8 = i / 8
  · have hlt : j % 8 < 8 := mod_lt _ (by omega)
    rw [hbyte, update_self, BitVec.getLsbD_and, BitVec.getLsbD_not,
      getLsbD_one_shiftLeft (mod_lt _ (by omega)) hlt]
    simp only [hlt, decide_true, Bool.true_and]
    congr 3
    exact propext ⟨fun h => by omega, fun h => by rw [h]⟩
  · rw [update_of_ne hbyte]
    have hne : j ≠ i := fun h => hbyte (by rw [h])
    simp [hne]

def word (k : ℕ) : ℕ := le b (4 * k) 4

end Bytes
