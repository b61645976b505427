import Mathlib.Tactic.Common

/-! Counting loops over a state, and their invariant rules. -/
namespace Loop

variable {σ α ρ : Type}

/-- `for (i = 0; i < n; i++)`; the body may fail to return. -/
def forUpTo (body : ℕ → σ → Option σ) : ℕ → σ → Option σ
  | 0, s => some s
  | n + 1, s => do
    let s ← forUpTo body n s
    body n s

/-- The same with a body that may leave the function: the flag is set. -/
def forUntil (body : ℕ → σ → Option (σ × Bool)) : ℕ → σ → Option (σ × Bool)
  | 0, s => some (s, false)
  | n + 1, s => do
    let (s, left) ← forUntil body n s
    if left then pure (s, true) else body n s

/-- `for (; cond i; i = next i)`; `none` if `n` turns do not end it. -/
def forWhile {ι : Type} (cond : ι → Bool) (next : ι → ι) (body : ι → σ → Option σ) :
    ℕ → ι → σ → Option σ
  | 0, _, _ => none
  | n + 1, i, s =>
    if cond i then do
      let s ← body i s
      forWhile cond next body n (next i) s
    else some s

variable {n : ℕ} {s : σ}

theorem forWhile_keeps {ι : Type} {cond : ι → Bool} {next : ι → ι} {body : ι → σ → Option σ}
    {i : ι} {s' : σ} (P : σ → Prop) (hstep : ∀ i s s', P s → body i s = some s' → P s') (h0 : P s)
    (hrun : forWhile cond next body n i s = some s') : P s' := by
  induction n generalizing i s with
  | zero => exact absurd hrun (by simp [forWhile])
  | succ n ih =>
    unfold forWhile at hrun
    split_ifs at hrun with hc
    · obtain ⟨s1, he, hrun⟩ := Option.bind_eq_some_iff.mp hrun
      exact ih (hstep i s s1 h0 he) hrun
    · cases hrun
      exact h0

theorem forWhile_invariant {ι : Type} {cond : ι → Bool} {next : ι → ι} {body : ι → σ → Option σ}
    {i : ι} (P : ι → σ → Prop) (μ : ι → ℕ) (h0 : P i s) (hμ : μ i < n)
    (hstep : ∀ i s, cond i = true → P i s →
      μ (next i) < μ i ∧ ∃ s', body i s = some s' ∧ P (next i) s') :
    ∃ i' s', forWhile cond next body n i s = some s' ∧ cond i' = false ∧ P i' s' := by
  induction n generalizing i s with
  | zero => exact absurd hμ (Nat.not_lt_zero _)
  | succ n ih =>
    unfold forWhile
    split_ifs with hc
    · obtain ⟨hlt, s1, he, h1⟩ := hstep i s hc h0
      obtain ⟨i', s', hrun, hleft, h'⟩ := ih h1 (by omega)
      refine ⟨i', s', ?_, hleft, h'⟩
      rw [he]
      exact hrun
    · exact ⟨i, s, rfl, Bool.eq_false_iff.mpr hc, h0⟩

variable {body : ℕ → σ → Option σ}

theorem forUpTo_invariant (P : ℕ → σ → Prop)
    (h0 : P 0 s) (hstep : ∀ i < n, ∀ s, P i s → ∃ s', body i s = some s' ∧ P (i + 1) s') :
    ∃ s', forUpTo body n s = some s' ∧ P n s' := by
  induction n with
  | zero => exact ⟨s, rfl, h0⟩
  | succ n ih =>
    obtain ⟨s1, he1, h1⟩ := ih fun i hi => hstep i (by omega)
    obtain ⟨s2, he2, h2⟩ := hstep n (by omega) s1 h1
    refine ⟨s2, ?_, h2⟩
    unfold forUpTo
    rw [he1]
    exact he2

theorem forUpTo_eq_self (h : ∀ i < n, body i s = some s) : forUpTo body n s = some s := by
  obtain ⟨s', he, rfl⟩ := forUpTo_invariant (fun _ s' => s' = s) rfl fun i hi s' hs => by
    rw [hs]
    exact ⟨s, h i hi, rfl⟩
  exact he

variable {body : ℕ → σ → Option (σ × Bool)}

variable (P : ℕ → σ → Prop)

/-- `P` holds while the loop goes on, `Q` where it was left. -/
theorem forUntil_spec (Q : σ → Prop) (h0 : P 0 s)
    (hstep : ∀ i < n, ∀ s, P i s → ∃ s' left, body i s = some (s', left) ∧
      (left = false → P (i + 1) s') ∧ (left = true → Q s')) :
    ∃ s' left, forUntil body n s = some (s', left) ∧ (left = false → P n s') ∧
      (left = true → Q s') := by
  induction n with
  | zero => exact ⟨s, false, rfl, fun _ => h0, by simp⟩
  | succ n ih =>
    obtain ⟨s1, left1, he1, hP, hQ⟩ := ih fun i hi => hstep i (by omega)
    unfold forUntil
    rw [he1]
    cases left1 with
    | false => exact hstep n (by omega) s1 (hP rfl)
    | true => exact ⟨s1, true, rfl, by simp, fun _ => hQ rfl⟩

theorem forUntil_invariant (h0 : P 0 s)
    (hstep : ∀ i < n, ∀ s, P i s → ∃ s', body i s = some (s', false) ∧ P (i + 1) s') :
    ∃ s', forUntil body n s = some (s', false) ∧ P n s' := by
  obtain ⟨s', left, he, hP, hQ⟩ := forUntil_spec P (fun _ => False) h0 fun i hi s hs => by
    obtain ⟨s', he, h'⟩ := hstep i hi s hs
    exact ⟨s', false, he, fun _ => h', nofun⟩
  cases left with
  | false => exact ⟨s', he, hP rfl⟩
  | true => exact (hQ rfl).elim

end Loop
