import Mathlib.Algebra.BigOperators.Group.Finset.Piecewise
import Mathlib.Data.Fintype.Basic

/-! Reference counts of objects, against the multiset of the places that hold one. -/

namespace RefCount
open Function Finset
open Multiset
variable {ι α : Type*} [DecidableEq α]

def incr (refs : α → ℕ) (a : α) : α → ℕ := update refs a (refs a + 1)

def incrAll (refs : α → ℕ) (as : List α) : α → ℕ := as.foldl incr refs

/-- One reference less; none to give back at 0. -/
def decr (refs : α → ℕ) (a : α) : Option (α → ℕ) :=
  if refs a = 0 then none else some (update refs a (refs a - 1))

def decrAll (refs : α → ℕ) : List α → Option (α → ℕ)
  | [] => some refs
  | a :: as => (decr refs a).bind fun refs => decrAll refs as

def Counts (refs : α → ℕ) (places : Multiset α) : Prop := ∀ a, refs a = places.count a

variable {refs refs' : α → ℕ} {places : Multiset α}

theorem Counts.incr (h : Counts refs places) (a : α) : Counts (incr refs a) (a ::ₘ places) := by
  intro b
  rw [RefCount.incr, update_apply, count_cons]
  split_ifs with hb
  · rw [hb, h a]
  · rw [h b, Nat.add_zero]

theorem Counts.incrAll (h : Counts refs places) (as : List α) :
    Counts (incrAll refs as) (as + places) := by
  induction as generalizing refs places with
  | nil => simpa [RefCount.incrAll] using h
  | cons a as ih =>
    have hrest := ih (h.incr a)
    rwa [add_cons, ← cons_add] at hrest

theorem Counts.decr {a : α} (h : Counts refs (a ::ₘ places)) :
    ∃ refs', decr refs a = some refs' ∧ Counts refs' places := by
  have hpos : refs a ≠ 0 := by
    rw [h a, count_cons_self]
    exact Nat.succ_ne_zero _
  refine ⟨_, if_neg hpos, fun b => ?_⟩
  rw [update_apply]
  split_ifs with hb
  · rw [hb, h a, count_cons_self, Nat.add_sub_cancel]
  · rw [h b, count_cons_of_ne hb]

theorem Counts.decrAll {as : List α} (h : Counts refs (as + places)) :
    ∃ refs', decrAll refs as = some refs' ∧ Counts refs' places := by
  induction as generalizing refs with
  | nil => exact ⟨refs, rfl, by simpa using h⟩
  | cons a as ih =>
    rw [← cons_coe, cons_add] at h
    obtain ⟨refs1, h1, hc⟩ := h.decr
    obtain ⟨refs2, h2, hc2⟩ := ih hc
    exact ⟨refs2, by rw [RefCount.decrAll, h1]; exact h2, hc2⟩

theorem Counts.of_decrAll {as : List α} (h : Counts refs (as + places))
    (hr : RefCount.decrAll refs as = some refs') : Counts refs' places := by
  obtain ⟨refs1, h1, hc⟩ := h.decrAll
  rw [hr, Option.some.injEq] at h1
  rwa [h1]

def entry : Option α → Multiset α
  | none => 0
  | some a => {a}

variable [Fintype ι]

def table (t : ι → Option α) : Multiset α := ∑ i, entry (t i)

omit [DecidableEq α] in
theorem table_update [DecidableEq ι] (t : ι → Option α) (i : ι) (v : Option α) :
    entry (t i) + table (update t i v) = entry v + table t := by
  have hupdate : (fun j => entry (update t i v j)) = update (fun j => entry (t j)) i (entry v) := by
    funext j
    rw [update_apply, update_apply]
    split_ifs <;> rfl
  rw [table, hupdate, sum_update_of_mem (mem_univ i), table,
    sum_eq_add_sum_sdiff_singleton_of_mem (mem_univ i) fun j => entry (t j)]
  exact add_left_comm _ _ _

variable {t : ι → Option α}

omit [DecidableEq α] in
theorem table_insert [DecidableEq ι] {i : ι} (h : t i = none) (a : α) :
    table (update t i (some a)) = a ::ₘ table t := by
  have htable := table_update t i (some a)
  rw [h] at htable
  exact (zero_add _).symm.trans htable

omit [DecidableEq α] in
theorem table_erase [DecidableEq ι] {i : ι} {a : α} (h : t i = some a) :
    a ::ₘ table (update t i none) = table t := by
  have htable := table_update t i none
  rw [h] at htable
  exact htable.trans (zero_add _)

omit [DecidableEq α] in
theorem table_empty : table (fun _ : ι => (none : Option α)) = 0 := sum_const_zero

end RefCount
