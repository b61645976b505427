import Mathlib.Data.Set.Insert
import Mathlib.Data.List.Basic

/-! Who has the items that are not in store: owners, or workers with one item at most in hand. -/
namespace Custody
open Function

variable {ι α : Type*} [DecidableEq ι] [DecidableEq α]

/-- The items `out` of store are those that owners hold and those in workers' hands, each once. -/
structure Kept (held : List α) (hand : ι → Option α) (out : Set α) : Prop where
  nodup : held.Nodup
  mem_iff : ∀ x, x ∈ out ↔ x ∈ held ∨ ∃ t, hand t = some x
  one_hand : ∀ t t' x, hand t = some x → hand t' = some x → t = t'
  not_held : ∀ t x, hand t = some x → x ∉ held

variable {held : List α} {hand : ι → Option α} {out : Set α} {t t' : ι} {x y : α}

omit [DecidableEq α] in
theorem update_some_cases (h : update hand t (some x) t' = some y) :
    (t' = t ∧ y = x) ∨ hand t' = some y := by
  by_cases ht : t' = t
  · rw [ht, update_self] at h
    exact .inl ⟨ht, (Option.some.inj h).symm⟩
  · rw [update_of_ne ht] at h
    exact .inr h

omit [DecidableEq α] in
theorem update_none_cases (h : update hand t none t' = some y) :
    t' ≠ t ∧ hand t' = some y := by
  by_cases ht : t' = t
  · rw [ht, update_self] at h
    cases h
  · rw [update_of_ne ht] at h
    exact ⟨ht, h⟩

omit [DecidableEq α] in
theorem exists_hand_update (hnone : hand t = none) :
    (∃ t1, update hand t (some x) t1 = some y) ↔ y = x ∨ ∃ t1, hand t1 = some y := by
  constructor
  · rintro ⟨t1, h1⟩
    rcases update_some_cases h1 with ⟨-, hy⟩ | h1'
    · exact .inl hy
    · exact .inr ⟨t1, h1'⟩
  · rintro (rfl | ⟨t1, h1⟩)
    · exact ⟨t, update_self ..⟩
    · refine ⟨t1, ?_⟩
      rw [update_of_ne]
      · exact h1
      · rintro rfl
        cases hnone.symm.trans h1

section
variable (h : Kept held hand out)
include h

omit [DecidableEq ι] [DecidableEq α] in
theorem Kept.not_mem_of_in (hx : x ∉ out) :
    x ∉ held ∧ ∀ t, hand t ≠ some x := by
  rw [h.mem_iff, not_or, not_exists] at hx
  exact hx

omit [DecidableEq α] in
theorem Kept.one_hand_update (hx : ∀ t, hand t ≠ some x) (t1 t2 : ι) (y : α)
    (h1 : update hand t (some x) t1 = some y)
    (h2 : update hand t (some x) t2 = some y) : t1 = t2 := by
  rcases update_some_cases h1 with ⟨e1, rfl⟩ | h1'
  · rcases update_some_cases h2 with ⟨e2, -⟩ | h2'
    · rw [e1, e2]
    · exact absurd h2' (hx t2)
  · rcases update_some_cases h2 with ⟨-, rfl⟩ | h2'
    · exact absurd h1' (hx t1)
    · exact h.one_hand t1 t2 y h1' h2'

omit [DecidableEq α] in
theorem Kept.exists_hand_update_none (ht : hand t = some x) :
    (∃ t1, update hand t none t1 = some y) ↔ y ≠ x ∧ ∃ t1, hand t1 = some y := by
  constructor
  · rintro ⟨t1, h1⟩
    obtain ⟨hne, h1'⟩ := update_none_cases h1
    refine ⟨?_, t1, h1'⟩
    rintro rfl
    exact hne (h.one_hand t1 t y h1' ht)
  · rintro ⟨hyx, t1, h1⟩
    refine ⟨t1, ?_⟩
    rw [update_of_ne]
    · exact h1
    · rintro rfl
      exact hyx (Option.some.inj (h1.symm.trans ht))

omit [DecidableEq α] in
theorem Kept.put (hnone : hand t = none) (hx : x ∉ out) :
    Kept held (update hand t (some x)) (insert x out) := by
  obtain ⟨hheld, hhand⟩ := h.not_mem_of_in hx
  refine ⟨h.nodup, fun y => ?_, h.one_hand_update hhand, fun t1 y h1 => ?_⟩
  · rw [Set.mem_insert_iff, h.mem_iff, exists_hand_update hnone, or_left_comm]
  · rcases update_some_cases h1 with ⟨-, rfl⟩ | h1'
    · exact hheld
    · exact h.not_held t1 y h1'

omit [DecidableEq α] in
theorem Kept.drop (ht : hand t = some x) :
    Kept held (update hand t none) (out \ {x}) := by
  refine ⟨h.nodup, fun y => ?_, fun t1 t2 y h1 h2 => ?_, fun t1 y h1 => ?_⟩
  · rw [Set.mem_sdiff, Set.mem_singleton_iff, h.mem_iff, h.exists_hand_update_none ht]
    constructor
    · rintro ⟨hy | hy, hyx⟩
      · exact .inl hy
      · exact .inr ⟨hyx, hy⟩
    · rintro (hy | ⟨hyx, hy⟩)
      · refine ⟨.inl hy, ?_⟩
        rintro rfl
        exact h.not_held t y ht hy
      · exact ⟨.inr hy, hyx⟩
  · exact h.one_hand t1 t2 y (update_none_cases h1).2 (update_none_cases h2).2
  · exact h.not_held t1 y (update_none_cases h1).2

omit [DecidableEq α] in
theorem Kept.hand_over (t : ι) :
    Kept ((hand t).toList ++ held) (update hand t none) out := by
  cases ht : hand t with
  | none =>
    rw [← ht, update_eq_self, ht]
    exact h
  | some x =>
    refine ⟨List.nodup_cons.mpr ⟨h.not_held t x ht, h.nodup⟩, fun y => ?_,
      fun t1 t2 y h1 h2 => h.one_hand t1 t2 y (update_none_cases h1).2 (update_none_cases h2).2,
      fun t1 y h1 => ?_⟩
    · rw [h.mem_iff, h.exists_hand_update_none ht]
      change _ ↔ y ∈ x :: held ∨ _
      rw [List.mem_cons]
      by_cases hyx : y = x
      · subst hyx
        simp only [true_or, iff_true]
        exact .inr ⟨t, ht⟩
      · simp [hyx]
    · obtain ⟨hne, h1'⟩ := update_none_cases h1
      change y ∉ x :: held
      rw [List.mem_cons, not_or]
      refine ⟨?_, h.not_held t1 y h1'⟩
      rintro rfl
      exact hne (h.one_hand t1 t y h1' ht)

theorem Kept.take (hnone : hand t = none) (hx : x ∈ held) :
    Kept (held.erase x) (update hand t (some x)) out := by
  have hfree (t' : ι) : hand t' ≠ some x := fun ht' => h.not_held t' x ht' hx
  refine ⟨h.nodup.erase x, fun y => ?_, h.one_hand_update hfree, fun t1 y h1 => ?_⟩
  · rw [h.mem_iff, exists_hand_update hnone]
    by_cases hyx : y = x
    · simp [hyx, hx]
    · simp [hyx]
  · rw [h.nodup.mem_erase_iff]
    rintro ⟨hyx, hy⟩
    rcases update_some_cases h1 with ⟨-, e⟩ | h1'
    · exact hyx e
    · exact h.not_held t1 y h1' hy

end

end Custody
