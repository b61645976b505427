import Mathlib.Tactic

/-! Counting up and down in a signed 32-bit word. -/
namespace Word

theorem toInt_add_one {x : BitVec 32} (h : x.toInt + 1 < 2 ^ 31) : (x + 1).toInt = x.toInt + 1 := by
  have hlow := BitVec.le_toInt x
  rw [BitVec.toInt_add, Int.bmod_def, show (1 : BitVec 32).toInt = 1 by decide]
  omega

theorem toInt_sub_one {x : BitVec 32} (h : 0 < x.toInt) : (x - 1).toInt = x.toInt - 1 := by
  have hlt := BitVec.toInt_lt (x := x)
  rw [BitVec.toInt_sub, Int.bmod_def, show (1 : BitVec 32).toInt = 1 by decide]
  omega

end Word
