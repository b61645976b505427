import Doppio.Mmu.Forest
import Doppio.Mmu.Frames

/-! The tables of the user halves are a forest without 2 MiB pages, and the mappings are its last
level. -/
namespace Doppio
open List

/-- An index of the table at `π` in the user half. -/
def UserIdx (π : List ℕ) (i : ℕ) : Prop := i < if π = [] then 256 else 512

/-- The indices above the entry of a page. -/
def pagePath (v : ℕ) : List ℕ := [v / 2 ^ 27 % 512, v / 2 ^ 18 % 512, v / 2 ^ 9 % 512]

def userPages : ℕ := 2 ^ 35

theorem pagePath_inj {v w : ℕ} (hv : v < userPages) (hw : w < userPages)
    (h : pagePath v = pagePath w) (h' : v % 512 = w % 512) : v = w := by
  unfold userPages at hv hw
  simp only [pagePath, List.cons.injEq] at h
  omega

namespace Mmu

theorem ownPath_pagePath {v : ℕ} (hv : v < userPages) : OwnPath UserIdx [] (pagePath v) := by
  unfold userPages at hv
  simp only [OwnPath, pagePath, UserIdx, if_true, nil_append, cons_append,
    reduceCtorEq, if_false, and_true]
  omega

def descend (s : Mmu) : ℕ → List ℕ → Option ℕ
  | t, [] => some t
  | t, i :: is =>
    if (s.entry t i).has ptePresent ∧ (s.entry t i).has pteHuge = false then
      descend s (s.entry t i).frame is
    else none

def pte (s : Mmu) (map v : ℕ) : Option PtEntry :=
  (s.descend map (pagePath v)).bind fun t =>
    if (s.entry t (v % 512)).has ptePresent then some (s.entry t (v % 512)) else none

open Classical in
noncomputable def mappings (s : Mmu) (live : Set ℕ) : Mappings := fun k =>
  if k.1 ∈ live ∧ k.2 < userPages then s.pte k.1 k.2 else none

/-- An entry names the table below, and a table is named by the entry above it. -/
structure Placed (s : Mmu) (place : Places) : Prop where
  root : ∀ p m, place p = some (m, []) → p = m
  length_le : ∀ p m π, place p = some (m, π) → π.length ≤ 3
  below : ∀ t m π i, place t = some (m, π) → π.length < 3 → UserIdx π i →
    (s.entry t i).has ptePresent →
    (s.entry t i).has pteHuge = false ∧ place (s.entry t i).frame = some (m, π ++ [i])
  above : ∀ q m π i, place q = some (m, π ++ [i]) → UserIdx π i ∧
    ∃ t, place t = some (m, π) ∧ (s.entry t i).has ptePresent ∧ (s.entry t i).frame = q

theorem vmmGetPteLoop_false (s : Mmu) (is : List ℕ) (t : ℕ) :
    vmmGetPteLoop false is s t = some (s, s.descend t is) := by
  induction is generalizing t with
  | nil => rfl
  | cons i is ih =>
    unfold vmmGetPteLoop descend vmmNextTable
    by_cases hp : (s.entry t i).has ptePresent
    · by_cases hh : (s.entry t i).has pteHuge
      · simp [hh]
      · simp [hp, hh, ih]
    · simp [hp]

theorem pageIdx_eq (virt : ℕ) :
    [pml4Idx virt, pdptIdx virt, pdIdx virt] = pagePath (virt / pageSize) ∧
      ptIdx virt = virt / pageSize % 512 := by
  refine ⟨?_, ptIdx_eq virt⟩
  rw [pml4Idx_eq, pdptIdx_eq, pdIdx_eq]
  unfold pagePath pageSize
  rw [Nat.div_div_eq_div_mul, Nat.div_div_eq_div_mul, Nat.div_div_eq_div_mul]
  rfl

theorem vmmGetPte_false (s : Mmu) (map virt : ℕ) :
    s.vmmGetPte map virt false = some (s, (s.descend map (pagePath (virt / pageSize))).map
      fun t => (t, virt / pageSize % 512)) := by
  unfold vmmGetPte
  rw [vmmGetPteLoop_false, (pageIdx_eq virt).1, (pageIdx_eq virt).2]
  rfl

variable {s s' : Mmu} {place : Places} {live : Set ℕ} {t q m : ℕ} {π : List ℕ}

theorem descend_append (s : Mmu) (is js : List ℕ) (t : ℕ) :
    s.descend t (is ++ js) = (s.descend t is).bind fun t => s.descend t js := by
  induction is generalizing t with
  | nil => rfl
  | cons i is ih =>
    simp only [cons_append, descend]
    split_ifs
    · exact ih _
    · rfl

theorem placed_iff : s.Placed place ↔ Forest UserIdx False s place := by
  constructor
  · intro h
    refine ⟨h.root, h.length_le, fun t m π i ht hlen hi hp => .inl (h.below t m π i ht hlen hi hp),
      ?_⟩
    intro q m π i hq
    have hlen := h.length_le q m _ hq
    rw [length_append, length_singleton] at hlen
    obtain ⟨hi, t, ht, hp, hf⟩ := h.above q m π i hq
    exact ⟨hi, t, ht, ⟨hp, (h.below t m π i ht (by omega) hi hp).1⟩, hf⟩
  · intro h
    refine ⟨h.root, h.length_le, ?_, ?_⟩
    · intro t m π i ht hlen hi hp
      exact (h.below t m π i ht hlen hi hp).resolve_right fun hb => hb.1
    · intro q m π i hq
      obtain ⟨hi, t, ht, hl, hf⟩ := h.above q m π i hq
      exact ⟨hi, t, ht, hl.1, hf⟩

theorem Forest.place_of_descend {own : List ℕ → ℕ → Prop} {big : Prop} {is : List ℕ}
    (h : Forest own big s place) (ht : place t = some (m, π)) (his : OwnPath own π is)
    (hlen : π.length + is.length ≤ 3) (hd : s.descend t is = some q) :
    place q = some (m, π ++ is) := by
  induction is generalizing t π with
  | nil =>
    cases hd
    rw [append_nil]
    exact ht
  | cons i is ih =>
    rw [length_cons] at hlen
    unfold descend at hd
    split_ifs at hd with hif
    have hb := h.below_of_links ht (by omega) his.1 hif
    have := ih hb his.2 (by rw [length_append, length_singleton]; omega) hd
    rw [this, append_assoc]
    rfl

theorem UserIdx.lt {i : ℕ} (h : UserIdx π i) : i < 512 := by
  unfold UserIdx at h
  split_ifs at h <;> omega

section
variable (h : s.Placed place)
include h

section
variable (hp : place t = some (m, π))
include hp

theorem Placed.inj (hq : place q = some (m, π)) :
    t = q := (placed_iff.mp h).inj hp hq

theorem Placed.root_placed :
    place m = some (m, []) := (placed_iff.mp h).root_placed hp

theorem Placed.descend_of_place {is : List ℕ}
    (hq : place q = some (m, π ++ is)) : s.descend t is = some q := by
  induction is using List.reverseRecOn generalizing q with
  | nil =>
    rw [append_nil] at hq
    rw [h.inj hp hq]
    rfl
  | append_singleton is i ih =>
    rw [← append_assoc] at hq
    have hlen := h.length_le q m _ hq
    obtain ⟨hi, t', ht', hpres, rfl⟩ := h.above q m _ i hq
    rw [length_append, length_singleton] at hlen
    have hb := h.below t' m _ i ht' (by omega) hi hpres
    rw [descend_append, ih ht']
    simp [descend, hpres, hb.1]

end

theorem Placed.mappings_iff
    (hlive : ∀ m, m ∈ live ↔ place m = some (m, [])) {v : ℕ} {e : PtEntry} :
    s.mappings live (m, v) = some e ↔ v < userPages ∧
      ∃ t, place t = some (m, pagePath v) ∧ s.entry t (v % 512) = e ∧ e.has ptePresent := by
  unfold mappings
  constructor
  · intro hm
    split_ifs at hm with hif
    refine ⟨hif.2, ?_⟩
    unfold pte at hm
    rw [Option.bind_eq_some_iff] at hm
    obtain ⟨t, hd, ht⟩ := hm
    have hroot := (hlive m).mp hif.1
    have := (placed_iff.mp h).place_of_descend hroot (ownPath_pagePath hif.2) (by simp [pagePath]) hd
    split_ifs at ht with hpres
    cases ht
    exact ⟨t, this, rfl, hpres⟩
  · rintro ⟨hv, t, ht, rfl, hpres⟩
    have hroot := h.root_placed ht
    rw [if_pos ⟨(hlive m).mpr hroot, hv⟩]
    unfold pte
    rw [h.descend_of_place hroot (by simpa using ht)]
    simp [hpres]

theorem Placed.congr
    (hsame : ∀ t m π i, place t = some (m, π) → π.length < 3 → UserIdx π i →
      (s'.entry t i).has ptePresent = (s.entry t i).has ptePresent ∧
      (s'.entry t i).has pteHuge = (s.entry t i).has pteHuge ∧
      (s'.entry t i).frame = (s.entry t i).frame) : s'.Placed place :=
  placed_iff.mpr ((placed_iff.mp h).congr hsame)

theorem Placed.addRoot (hq : place q = none)
    (hempty : ∀ i < 256, (s'.entry q i).has ptePresent = false)
    (hsame : ∀ p, p ≠ q → s'.entry p = s.entry p) :
    s'.Placed (Function.update place q (some (q, []))) :=
  placed_iff.mpr ((placed_iff.mp h).addRoot hq (fun i hi => hempty i hi) hsame)

end

open Classical in
noncomputable def withoutMap (place : Places) (m : ℕ) : Places := fun p =>
  if ∃ π, place p = some (m, π) then none else place p

theorem withoutMap_eq_some {p m' : ℕ} {π' : List ℕ} :
    withoutMap place m p = some (m', π') ↔ place p = some (m', π') ∧ m' ≠ m := by
  unfold withoutMap
  split_ifs with hif
  · obtain ⟨π, hπ⟩ := hif
    simp only [false_iff, not_and, not_not]
    intro hp
    exact (congrArg Prod.fst (Option.some.inj (hp.symm.trans hπ)))
  · constructor
    · intro hp
      refine ⟨hp, ?_⟩
      rintro rfl
      exact hif ⟨π', hp⟩
    · exact And.left

theorem Placed.withoutMap (h : s.Placed place) (m : ℕ) : s.Placed (withoutMap place m) := by
  constructor
  · intro p m' hp
    exact h.root p m' (withoutMap_eq_some.mp hp).1
  · intro p m' π' hp
    exact h.length_le p m' π' (withoutMap_eq_some.mp hp).1
  · intro t m' π' i ht hlen hi hpres
    obtain ⟨ht, hne⟩ := withoutMap_eq_some.mp ht
    have hb := h.below t m' π' i ht hlen hi hpres
    exact ⟨hb.1, withoutMap_eq_some.mpr ⟨hb.2, hne⟩⟩
  · intro q m' π' i hq
    obtain ⟨hq, hne⟩ := withoutMap_eq_some.mp hq
    obtain ⟨hi, t, ht, hrest⟩ := h.above q m' π' i hq
    exact ⟨hi, t, withoutMap_eq_some.mpr ⟨ht, hne⟩, hrest⟩

end Mmu
end Doppio
