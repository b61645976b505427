import Mathlib.Data.List.Basic

/-! Lines of a write-back cache over a backing store, and the memory they show together. -/
namespace WriteBack
open Function

structure Line (K D : Type*) where
  key : K
  data : D
  valid : Bool
  dirty : Bool

def Line.Caches {K D : Type*} (l : Line K D) (k : K) : Prop := l.valid = true ∧ l.key = k

variable {ι K D : Type*} {c : ι → Line K D} {store m : K → D} {pending : List K} {i : ι} {k : K}

/-- The lines over `store` show `m`. The keys of `pending` are marked clean although their data may
still be on its way. -/
structure Coherent (c : ι → Line K D) (store m : K → D) (pending : List K) : Prop where
  unique : ∀ i j k, (c i).Caches k → (c j).Caches k → i = j
  data_eq : ∀ i k, (c i).Caches k → (c i).data = m k
  clean : ∀ i k, (c i).Caches k → (c i).dirty = false → k ∈ pending ∨ store k = m k
  absent : ∀ k, (∀ i, ¬(c i).Caches k) → store k = m k
  valid_of_dirty : ∀ i, (c i).dirty = true → (c i).valid = true

theorem coherent_of_invalid (hvalid : ∀ i, (c i).valid = false) (hdirty : ∀ i, (c i).dirty = false) :
    Coherent c store store [] := by
  have hnone : ∀ i k, ¬(c i).Caches k := fun i k h => by simp [Line.Caches, hvalid i] at h
  exact ⟨fun i _ k h => absurd h (hnone i k), fun i k h => absurd h (hnone i k),
    fun i k h => absurd h (hnone i k), fun _ _ => rfl, fun i h => by simp [hdirty i] at h⟩

theorem Coherent.store_eq (h : Coherent c store m []) (hclean : ∀ i, (c i).dirty = false) :
    store = m := by
  funext k
  by_cases hk : ∃ i, (c i).Caches k
  · obtain ⟨i, hi⟩ := hk
    simpa using h.clean i k hi (hclean i)
  · exact h.absent k (not_exists.mp hk)

theorem Coherent.skip (h : Coherent c store m (k :: pending)) (hk : ∀ i, ¬(c i).Caches k) :
    Coherent c store m pending := by
  refine { h with clean := fun i k' hi hd => ?_ }
  rcases h.clean i k' hi hd with hmem | hstore
  · have hne : k' ≠ k := by
      rintro rfl
      exact hk i hi
    exact .inl ((List.mem_cons.mp hmem).resolve_left hne)
  · exact .inr hstore

variable [DecidableEq K]

theorem Coherent.writeBack (h : Coherent c store m (k :: pending)) (hi : (c i).Caches k) :
    Coherent c (update store k (c i).data) m pending := by
  have hstore : ∀ k', k' = k ∨ store k' = m k' → update store k (c i).data k' = m k' := by
    intro k' hk'
    by_cases heq : k' = k
    · subst heq
      rw [update_self, h.data_eq i k' hi]
    · rw [update_of_ne heq, hk'.resolve_left heq]
  refine { h with clean := fun j k' hj hd => ?_, absent := fun k' hk' => ?_ }
  · rcases h.clean j k' hj hd with hmem | hs
    · rcases List.mem_cons.mp hmem with rfl | hmem
      · exact .inr (hstore k' (.inl rfl))
      · exact .inl hmem
    · exact .inr (hstore k' (.inr hs))
  · exact hstore k' (.inr (h.absent k' hk'))

omit [DecidableEq K] in
theorem Coherent.pend (h : Coherent c store m pending) (k : K) :
    Coherent c store m (k :: pending) :=
  { h with clean := fun i k' hi hd => (h.clean i k' hi hd).imp_left (List.mem_cons_of_mem k) }

theorem Coherent.overwrite (h : Coherent c store m pending) (hk : ∀ i, ¬(c i).Caches k) (x : D) :
    Coherent c (update store k x) (update m k x) pending := by
  have hother : ∀ i k', (c i).Caches k' → k' ≠ k := by
    intro i k' hi heq
    exact hk i (heq ▸ hi)
  constructor
  · exact h.unique
  · intro i k' hi
    rw [update_of_ne (hother i k' hi)]
    exact h.data_eq i k' hi
  · intro i k' hi hd
    rw [update_of_ne (hother i k' hi), update_of_ne (hother i k' hi)]
    exact h.clean i k' hi hd
  · intro k' hk'
    rw [update_apply, update_apply, h.absent k' hk']
  · exact h.valid_of_dirty

variable [DecidableEq ι]

variable {l : Line K D}

omit [DecidableEq K] in
theorem Coherent.invalidate (h : Coherent c store m pending)
    (hl : l.valid = false) (hd : l.dirty = false) (hi : ∀ k, (c i).Caches k → store k = m k) :
    Coherent (update c i l) store m pending := by
  have hcase : ∀ j k, (update c i l j).Caches k → j ≠ i ∧ (c j).Caches k := by
    intro j k hj
    have hne : j ≠ i := by
      rintro rfl
      simp [Line.Caches, hl] at hj
    rw [update_of_ne hne] at hj
    exact ⟨hne, hj⟩
  constructor
  · exact fun j j' k hj hj' => h.unique j j' k (hcase j k hj).2 (hcase j' k hj').2
  · intro j k hj
    obtain ⟨hne, hc⟩ := hcase j k hj
    rw [update_of_ne hne, h.data_eq j k hc]
  · intro j k hj hdirty
    obtain ⟨hne, hc⟩ := hcase j k hj
    rw [update_of_ne hne] at hdirty
    exact h.clean j k hc hdirty
  · intro k hk
    by_cases hki : (c i).Caches k
    · exact hi k hki
    · refine h.absent k fun j hj => hk j ?_
      have hne : j ≠ i := by
        rintro rfl
        exact hki hj
      rwa [update_of_ne hne]
  · intro j hj
    have hne : j ≠ i := by
      rintro rfl
      simp [hd] at hj
    rw [update_of_ne hne] at hj ⊢
    exact h.valid_of_dirty j hj

/-- A line takes the new value `x` of `k`: the line of `k`, or a free one. It may be clean where the
store has `x`. -/
theorem Coherent.put (h : Coherent c store m pending) (x : D)
    (hl : l.Caches k) (hx : l.data = x) (hdirty : l.dirty = false → store k = x)
    (honly : ∀ j, (c j).Caches k → j = i) (hi : (c i).Caches k ∨ (c i).valid = false) :
    Coherent (update c i l) store (update m k x) pending := by
  have hother : ∀ j k', j ≠ i → (c j).Caches k' → k' ≠ k := by
    rintro j k' hne hj rfl
    exact hne (honly j hj)
  have hself : ∀ k', (update c i l i).Caches k' → k' = k := by
    intro k' hk'
    rw [update_self] at hk'
    exact hk'.2.symm.trans hl.2
  constructor
  · intro j j' k' hj hj'
    by_cases hji : j = i <;> by_cases hji' : j' = i
    · rw [hji, hji']
    · subst hji
      rw [update_of_ne hji'] at hj'
      exact absurd (hself k' hj) (hother j' k' hji' hj')
    · subst hji'
      rw [update_of_ne hji] at hj
      exact absurd (hself k' hj') (hother j k' hji hj)
    · rw [update_of_ne hji] at hj
      rw [update_of_ne hji'] at hj'
      exact h.unique j j' k' hj hj'
  · intro j k' hj
    by_cases hji : j = i
    · subst hji
      rw [hself k' hj, update_self, update_self, hx]
    · rw [update_of_ne hji] at hj ⊢
      rw [update_of_ne (hother j k' hji hj), h.data_eq j k' hj]
  · intro j k' hj hd
    by_cases hji : j = i
    · subst hji
      rw [update_self] at hd
      rw [hself k' hj, update_self, hdirty hd]
      exact .inr rfl
    · rw [update_of_ne hji] at hj hd
      rw [update_of_ne (hother j k' hji hj)]
      exact h.clean j k' hj hd
  · intro k' hk'
    have hne : k' ≠ k := by
      rintro rfl
      exact hk' i (by rwa [update_self])
    rw [update_of_ne hne]
    refine h.absent k' fun j hj => ?_
    by_cases hji : j = i
    · subst hji
      rcases hi with hi | hi
      · exact hne (hj.2.symm.trans hi.2)
      · simp [Line.Caches, hi] at hj
    · exact hk' j (by rwa [update_of_ne hji])
  · intro j hj
    by_cases hji : j = i
    · subst hji
      rw [update_self]
      exact hl.1
    · rw [update_of_ne hji] at hj ⊢
      exact h.valid_of_dirty j hj

omit [DecidableEq K] in
theorem Coherent.mark (h : Coherent c store m pending) (hl : l = { c i with dirty := false }) :
    Coherent (update c i l) store m (pending ++ [(c i).key]) := by
  have hiff : ∀ j k, (update c i l j).Caches k ↔ (c j).Caches k := by
    intro j k
    by_cases hji : j = i
    · subst hji
      rw [update_self, hl]
      rfl
    · rw [update_of_ne hji]
  constructor
  · exact fun j j' k hj hj' => h.unique j j' k ((hiff j k).mp hj) ((hiff j' k).mp hj')
  · intro j k hj
    rw [← h.data_eq j k ((hiff j k).mp hj)]
    by_cases hji : j = i
    · subst hji
      rw [update_self, hl]
    · rw [update_of_ne hji]
  · intro j k hj hd
    by_cases hji : j = i
    · subst hji
      have hk := ((hiff j k).mp hj).2
      exact .inl (by simp [hk])
    · rw [update_of_ne hji] at hd
      exact (h.clean j k ((hiff j k).mp hj) hd).imp_left (List.mem_append_left _)
  · exact fun k hk => h.absent k fun j hj => hk j ((hiff j k).mpr hj)
  · intro j hj
    by_cases hji : j = i
    · subst hji
      simp [hl] at hj
    · rw [update_of_ne hji] at hj ⊢
      exact h.valid_of_dirty j hj

end WriteBack
