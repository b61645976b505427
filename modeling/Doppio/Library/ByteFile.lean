import Mathlib.Data.List.GetD
import Mathlib.Tactic.Common

/-! Files as lists of cells, and transfers that go piece by piece through blocks of one size. -/
namespace ByteFile
open List

section File
variable {α : Type*} [Zero α]

variable (xs : List α)

/-- A file cut or zero-filled to the length `n`. -/
def resize (n : ℕ) : List α := xs.take n ++ List.replicate (n - xs.length) 0

/-- `buf` put at `off`, zeros in a gap before it. -/
def write (xs buf : List α) (off : ℕ) : List α :=
  let ys := resize xs (max xs.length (off + buf.length))
  ys.take off ++ buf ++ ys.drop (off + buf.length)

def read (count off : ℕ) : List α := (xs.drop off).take count

@[simp] theorem length_resize (n : ℕ) : (resize xs n).length = n := by
  simp only [resize, length_append, length_take, length_replicate]
  omega

@[simp] theorem resize_length : resize xs xs.length = xs := by
  simp [resize]

theorem getD_resize (n i : ℕ) :
    (resize xs n).getD i 0 = if i < n then xs.getD i 0 else 0 := by
  by_cases hlen : i < xs.length
  · by_cases hi : i < n
    · have hmin : i < min n xs.length := by omega
      simp [resize, getElem?_append, hi, hlen, hmin]
    · rw [if_neg hi, getD_eq_default _ _ (by simpa using hi)]
  · by_cases hi : i < n
    · have hmin : ¬i < min n xs.length := by omega
      simp only [resize, getD_eq_getElem?_getD, getElem?_append, length_take, hmin,
        if_false, getElem?_replicate, if_pos hi]
      rw [getElem?_eq_none (Nat.le_of_not_lt hlen)]
      split_ifs <;> rfl
    · rw [if_neg hi, getD_eq_default _ _ (by simpa using hi)]

@[simp] theorem length_write (xs buf : List α) (off : ℕ) :
    (write xs buf off).length = max xs.length (off + buf.length) := by
  simp only [write, length_append, length_take, length_drop, length_resize]
  omega

theorem getD_write (xs buf : List α) (off i : ℕ) :
    (write xs buf off).getD i 0 =
      if off ≤ i ∧ i < off + buf.length then buf.getD (i - off) 0 else xs.getD i 0 := by
  by_cases hlt : i < max xs.length (off + buf.length)
  · have hys : (resize xs (max xs.length (off + buf.length))).getD i 0 = xs.getD i 0 := by
      rw [getD_resize, if_pos hlt]
    rw [getD_eq_getElem?_getD] at hys
    simp only [write, getD_eq_getElem?_getD, getElem?_append, length_append,
      length_take, length_resize, getElem?_take, getElem?_drop]
    have hoff : min off (max xs.length (off + buf.length)) = off := by omega
    rw [hoff]
    split_ifs with h1 h2 h3 h4
    · omega
    · rw [hys, getD_eq_getElem?_getD]
    · rfl
    · omega
    · omega
    · rw [show off + buf.length + (i - (off + buf.length)) = i by omega, hys, getD_eq_getElem?_getD]
  · rw [getD_eq_default _ _ (by rw [length_write]; omega), if_neg (by omega),
      getD_eq_default _ _ (by omega)]

theorem read_eq_map (count off : ℕ) :
    read xs count off =
      (List.range (min count (xs.length - off))).map fun i => xs.getD (off + i) 0 := by
  apply ext_getElem?
  intro i
  rw [read, getElem?_take, getElem?_map, getElem?_drop]
  split_ifs with hi
  · by_cases hlen : off + i < xs.length
    · rw [getElem?_range (by omega), Option.map_some, getD_eq_getElem _ _ hlen,
        getElem?_eq_getElem hlen]
    · rw [getElem?_eq_none (by omega), getElem?_eq_none (by simp; omega)]
      rfl
  · rw [getElem?_eq_none (by simp; omega)]
    rfl

end File

/-- To the end of the block at `pos`, or all that is left. -/
def pieceLen (size pos left : ℕ) : ℕ := min (size - pos % size) left

variable {size pos left : ℕ}

theorem pieceLen_le_left : pieceLen size pos left ≤ left := Nat.min_le_right _ _

theorem mod_add_pieceLen_le (hsize : 0 < size) : pos % size + pieceLen size pos left ≤ size := by
  have := Nat.mod_lt pos hsize
  unfold pieceLen
  omega

theorem pieceLen_pos (hsize : 0 < size) (hleft : 0 < left) : 0 < pieceLen size pos left := by
  have := Nat.mod_lt pos hsize
  unfold pieceLen
  omega

end ByteFile
