import Doppio.Lock.SleepLockRuns

/-! `sys_semop` of `kernel/sys/sys_sem.c` against the application of its operations in order. The
kernel compares every operation with the values at entry, then adds them all. -/
namespace Doppio
open Function Option
open List
namespace SemSet

def values (set : SemSet) (k : ℕ) : ℤ := (set.val k).toNat

/-- The value does not become negative, or a wait for zero is met. -/
def Fits (v : ℤ) (op : SemBuf) : Prop :=
  0 ≤ v + op.semOp.toInt ∧ (op.semOp.toInt = 0 → v = 0)

instance (v : ℤ) (op : SemBuf) : Decidable (Fits v op) := inferInstanceAs (Decidable (_ ∧ _))

def sumOn (k : ℕ) (ops : List SemBuf) : ℤ :=
  (ops.map fun op => if op.semNum.toNat = k then op.semOp.toInt else 0).sum

section
variable (v : ℕ → ℤ)

variable (ops : List SemBuf)

/-- No value passes 65535 on the way. -/
def InRange : Prop := ∀ pre, pre <+: ops → ∀ k, v k + sumOn k pre < 2 ^ 16

end

variable {set : SemSet} {v w : ℕ → ℤ} {op : SemBuf} {ops pre : List SemBuf} {k : ℕ}

@[simp] theorem sumOn_append (k : ℕ) (ops ops' : List SemBuf) :
    sumOn k (ops ++ ops') = sumOn k ops + sumOn k ops' := by
  simp [sumOn]

def after (v : ℕ → ℤ) (op : SemBuf) : ℕ → ℤ :=
  update v op.semNum.toNat (v op.semNum.toNat + op.semOp.toInt)

end SemSet

namespace SleepLocks
variable {τ μ ρ ι : Type*} [DecidableEq τ] [DecidableEq μ] [DecidableEq ρ] [DecidableEq ι]
  {s s' : SleepLocks τ μ ρ ι} {Q : Set τ} {f : SleepQueue μ ρ ι → List τ} {c fuel : ℕ}
  {free : ℕ → Bool} {i : ι} {sops : List SemBuf}

variable {q : SleepQueue μ ρ ι}

def give : SemBuf := ⟨0, 1, 0⟩
def take : SemBuf := ⟨0, -1, 0⟩

end SleepLocks
end Doppio
