import Mathlib.Data.Set.Card

/-! Counting the references to an object: how many keys of a partial map name it. -/
namespace Naming
open Function Set

variable {κ ε ι : Type*} (name : ε → ι) (A : κ → Option ε)

/-- The keys whose value names `f`. -/
def namers (f : ι) : Set κ := {k | ∃ e, A k = some e ∧ name e = f}

noncomputable def count (f : ι) : ℕ := (namers name A f).ncard

variable {name A} {k : κ} {e e' : ε} {f : ι}

theorem finite_namers (hfin : {k | A k ≠ none}.Finite) (f : ι) : (namers name A f).Finite := by
  apply hfin.subset
  rintro k ⟨e, he, -⟩
  simp [he]

theorem count_pos (hfin : {k | A k ≠ none}.Finite) (h : A k = some e) (hf : name e = f) :
    0 < count name A f := by
  rw [count, ncard_pos (finite_namers hfin f)]
  exact ⟨k, e, h, hf⟩

theorem exists_of_count_pos (h : 0 < count name A f) : ∃ k e, A k = some e ∧ name e = f := by
  obtain ⟨k, e, he⟩ := nonempty_of_ncard_ne_zero h.ne'
  exact ⟨k, e, he⟩

theorem eq_of_count_eq_one {k' : κ} (h1 : count name A f = 1) (h : A k = some e) (hf : name e = f)
    (h' : A k' = some e') (hf' : name e' = f) : k = k' := by
  obtain ⟨x, hx⟩ := ncard_eq_one.mp h1
  have hk : k ∈ namers name A f := ⟨e, h, hf⟩
  have hk' : k' ∈ namers name A f := ⟨e', h', hf'⟩
  rw [hx] at hk hk'
  exact hk.trans hk'.symm

theorem count_le {B : κ → Option ε} (hfin : {k | B k ≠ none}.Finite)
    (h : ∀ k e, A k = some e → ∃ e', B k = some e' ∧ name e' = name e) (f : ι) :
    count name A f ≤ count name B f := by
  apply ncard_le_ncard _ (finite_namers hfin f)
  rintro k ⟨e, he, hf⟩
  obtain ⟨e', he', hn⟩ := h k e he
  exact ⟨e', he', hn.trans hf⟩

variable [DecidableEq κ]

section
variable (hfin : {k | A k ≠ none}.Finite)
include hfin

theorem finite_update (v : Option ε) :
    {x | update A k v x ≠ none}.Finite := by
  apply (hfin.insert k).subset
  intro x hx
  by_cases hxk : x = k
  · exact .inl hxk
  · right
    rwa [mem_ofPred_eq, update_of_ne hxk] at hx

theorem count_insert [DecidableEq ι] (h : A k = none) (e : ε)
    (f : ι) : count name (update A k (some e)) f =
      count name A f + if name e = f then 1 else 0 := by
  have hk : k ∉ namers name A f := by
    rintro ⟨e', he', -⟩
    simp [h] at he'
  by_cases hf : name e = f
  · rw [if_pos hf, count, count, ← ncard_insert_of_notMem hk (finite_namers hfin f)]
    congr 1
    ext x
    by_cases hx : x = k
    · simp [namers, hx, hf]
    · simp [namers, hx]
  · rw [if_neg hf, count]
    congr 1
    ext x
    by_cases hx : x = k
    · simp [namers, hx, hf, h]
    · simp [namers, hx]

theorem count_erase [DecidableEq ι] (h : A k = some e) (f : ι) :
    count name (update A k none) f + (if name e = f then 1 else 0) = count name A f := by
  have hback : update (update A k none) k (some e) = A := by
    rw [update_idem, ← h, update_eq_self]
  rw [← count_insert (finite_update hfin none) (update_self ..) e f, hback]

end

theorem count_replace (h : A k = some e) (hn : name e' = name e) (f : ι) :
    count name (update A k (some e')) f = count name A f := by
  unfold count
  congr 1
  ext x
  by_cases hx : x = k
  · simp [namers, hx, h, hn]
  · simp [namers, hx]

end Naming
