import Doppio.Library.LinkedQueue

/-! Stacks as linked lists, with one function of links over all nodes and a node on at most one
stack; and what the stacks hold: an item is at one place of one stack, or at none. -/
namespace Stacks
open Function List Option
open LinkedQueue

section Linked

variable {τ ι : Type*} [DecidableEq τ] [DecidableEq ι]

/-- The stacks with these first nodes have the nodes `l`, no node on two. -/
structure Shelves (next : τ → Option τ) (head : ι → Option τ) (l : ι → List τ) : Prop where
  linked : ∀ i, Linked next (head i) (l i)
  nodup : ∀ i, (l i).Nodup
  unique : ∀ i j a, a ∈ l i → a ∈ l j → i = j

variable {next : τ → Option τ} {head : ι → Option τ} {l : ι → List τ} {a : τ} {i : ι}

section
variable (h : Shelves next head l)
include h

omit [DecidableEq τ] [DecidableEq ι] in
theorem Shelves.eq_nil (hi : head i = none) : l i = [] := by
  have hl := h.linked i
  cases he : l i with
  | nil => rfl
  | cons b bs =>
    rw [he, hi] at hl
    cases hl.1

omit [DecidableEq τ] in
theorem Shelves.pop (hi : head i = some a) :
    ∃ as, l i = a :: as ∧ Shelves next (update head i (next a)) (update l i as) ∧
      ∀ j, a ∉ update l i as j := by
  have hl := h.linked i
  cases he : l i with
  | nil =>
    rw [he, hi] at hl
    exact absurd hl (by simp [Linked])
  | cons b bs =>
    rw [he, hi] at hl
    obtain ⟨hb, hbs⟩ := hl
    cases hb
    have hnodup := nodup_cons.mp (he ▸ h.nodup i)
    have hsub (j : ι) (c : τ) (hc : c ∈ update l i bs j) : c ∈ l j := by
      by_cases hj : j = i
      · subst hj
        rw [update_self] at hc
        rw [he]
        exact mem_cons_of_mem a hc
      · rwa [update_of_ne hj] at hc
    refine ⟨bs, rfl, ⟨?_, ?_, ?_⟩, ?_⟩
    · intro j
      by_cases hj : j = i
      · subst hj
        simpa using hbs
      · simpa [hj] using h.linked j
    · intro j
      by_cases hj : j = i
      · subst hj
        simpa using hnodup.2
      · simpa [hj] using h.nodup j
    · exact fun j k c hc hc' => h.unique j k c (hsub j c hc) (hsub k c hc')
    · intro j hc
      have hj : j = i := h.unique j i a (hsub j a hc) (by simp [he])
      subst hj
      rw [update_self] at hc
      exact hnodup.1 hc

omit [DecidableEq τ] in
theorem Shelves.head_mem (hi : head i = some a) : a ∈ l i := by
  obtain ⟨as, he, -⟩ := h.pop hi
  rw [he]
  exact mem_cons_self

omit [DecidableEq ι] in
theorem Shelves.write (ha : ∀ j, a ∉ l j) (v : Option τ) :
    Shelves (update next a v) head l := by
  refine ⟨fun j => (h.linked j).congr fun t ht => ?_, h.nodup, h.unique⟩
  apply update_of_ne
  rintro rfl
  exact ha j ht

omit [DecidableEq τ] in
theorem Shelves.prepend {next' : τ → Option τ} {as : List τ} {v : Option τ}
    (hnext : ∀ j, ∀ t ∈ l j, next' t = next t)
    (hfresh : ∀ t ∈ as, ∀ j, t ∉ l j) (hnodup : as.Nodup) (hv : Linked next' v (as ++ l i)) :
    Shelves next' (update head i v) (update l i (as ++ l i)) := by
  have hmem (j : ι) (t : τ) (ht : t ∈ update l i (as ++ l i) j) :
      t ∈ l j ∨ (t ∈ as ∧ j = i) := by
    by_cases hj : j = i
    · subst hj
      rw [update_self, mem_append] at ht
      rcases ht with ht | ht
      · exact .inr ⟨ht, rfl⟩
      · exact .inl ht
    · rw [update_of_ne hj] at ht
      exact .inl ht
  refine ⟨fun j => ?_, fun j => ?_, fun j k t hj hk => ?_⟩
  · by_cases hj : j = i
    · subst hj
      simpa using hv
    · simpa [hj] using (h.linked j).congr (hnext j)
  · by_cases hj : j = i
    · subst hj
      rw [update_self, nodup_append]
      refine ⟨hnodup, h.nodup j, ?_⟩
      rintro t ht _ hu rfl
      exact hfresh t ht j hu
    · simpa [hj] using h.nodup j
  · rcases hmem j t hj with hj' | ⟨hj', hji⟩
    · rcases hmem k t hk with hk' | ⟨hk', -⟩
      · exact h.unique j k t hj' hk'
      · exact absurd hj' (hfresh t hk' j)
    · rcases hmem k t hk with hk' | ⟨-, hki⟩
      · exact absurd hk' (hfresh t hj' k)
      · rw [hji, hki]

theorem Shelves.push (ha : ∀ j, a ∉ l j) (i : ι) :
    Shelves (update next a (head i)) (update head i (some a)) (update l i (a :: l i)) := by
  have hw := h.write ha (head i)
  have hl : Linked (update next a (head i)) (some a) ([a] ++ l i) := by
    refine ⟨rfl, ?_⟩
    rw [update_self]
    exact hw.linked i
  have hfresh (t : τ) (ht : t ∈ [a]) (j : ι) : t ∉ l j := by
    rw [mem_singleton.mp ht]
    exact ha j
  exact hw.prepend (fun _ _ _ => rfl) hfresh (nodup_singleton a) hl

end

end Linked

section Contents

variable {ι α : Type*} [DecidableEq ι] [DecidableEq α]

/-- The stacks hold `contents`, each item at its place `loc`. -/
def Stacked (contents : ι → List α) (loc : α → Option (ι × ℕ)) : Prop :=
  ∀ a n x, (contents a)[n]? = some x ↔ loc x = some (a, n)

variable {contents : ι → List α} {loc : α → Option (ι × ℕ)} {a : ι} {x : α}

omit [DecidableEq ι] [DecidableEq α] in
theorem Stacked.mem (h : Stacked contents loc) : x ∈ contents a ↔ ∃ n, loc x = some (a, n) := by
  simp only [mem_iff_getElem?, h a _ x]

theorem Stacked.push (h : Stacked contents loc) (hx : loc x = none) (a : ι) :
    Stacked (update contents a (contents a ++ [x]))
      (update loc x (some (a, (contents a).length))) := by
  intro b n y
  by_cases hy : y = x
  · subst hy
    have hnot (c : ι) (m : ℕ) : (contents c)[m]? ≠ some y := by
      rw [Ne, h c m y, hx]
      simp
    rw [update_self]
    by_cases hb : b = a
    · subst hb
      rw [update_self, getElem?_append]
      split_ifs with hn
      · simp only [hnot, some.injEq, Prod.mk.injEq, false_iff]
        omega
      · rw [getElem?_singleton]
        split_ifs with hz
        · simp only [some.injEq, Prod.mk.injEq, true_and, true_iff]
          omega
        · simp only [some.injEq, Prod.mk.injEq, false_iff]
          omega
    · rw [update_of_ne hb]
      simp [hnot, Ne.symm hb]
  · rw [update_of_ne hy, ← h b n y]
    by_cases hb : b = a
    · subst hb
      rw [update_self, getElem?_append]
      split_ifs with hn
      · rfl
      · have hnone : (contents b)[n]? = none := getElem?_eq_none (by omega)
        rw [hnone, getElem?_singleton]
        split_ifs
        · simp [Ne.symm hy]
        · rfl
    · rw [update_of_ne hb]

theorem Stacked.pop {xs : List α} (h : Stacked contents loc) (ha : contents a = xs ++ [x]) :
    Stacked (update contents a xs) (update loc x none) := by
  have hloc : loc x = some (a, xs.length) := by
    rw [← h a xs.length x, ha]
    simp
  intro b n y
  by_cases hb : b = a
  · subst hb
    rw [update_self]
    have hn : xs[n]? = some y ↔ (contents b)[n]? = some y ∧ n < xs.length := by
      rw [ha, getElem?_append]
      split_ifs with hlt
      · simp [hlt]
      · simp [hlt]
    rw [hn, h b n y]
    by_cases hy : y = x
    · subst hy
      rw [update_self, hloc]
      simp only [some.injEq, Prod.mk.injEq, reduceCtorEq, iff_false]
      omega
    · rw [update_of_ne hy]
      refine ⟨And.left, fun hy' => ⟨hy', ?_⟩⟩
      -- the place is not the last one, which is that of the item taken
      have hget := (h b n y).mpr hy'
      rw [ha] at hget
      by_contra hge
      rw [getElem?_append_right (by omega), getElem?_singleton] at hget
      split_ifs at hget
      exact hy (some.inj hget).symm
  · rw [update_of_ne hb, h b n y]
    by_cases hy : y = x
    · subst hy
      rw [hloc]
      simp [Ne.symm hb]
    · rw [update_of_ne hy]

end Contents

end Stacks
