import Doppio.Mmu.Translate

/-! Page tables as trees: every table has one place in one map, and what its entries name has the
place below it. Which indices lead to tables of the tree, and whether a directory may hold 2 MiB
pages, are parameters. -/
namespace Doppio
open Function
open List

/-- The places of the tables: the map, and the indices on the way down to the table. -/
abbrev Places := ℕ → Option (ℕ × List ℕ)

theorem Places.update_some {place : Places} {q p : ℕ} {x y : ℕ × List ℕ} :
    update place q (some y) p = some x ↔ (p = q ∧ x = y) ∨ (p ≠ q ∧ place p = some x) := by
  by_cases hpq : p = q
  · rw [hpq]
    simp [eq_comm]
  · simp [hpq]

theorem Places.update_new {place : Places} {q p : ℕ} {x : ℕ × List ℕ} (hq : place q = none)
    (hp : place p = some x) (y : ℕ × List ℕ) : p ≠ q ∧ update place q (some y) p = some x := by
  have hne : p ≠ q := by
    rintro rfl
    simp [hq] at hp
  exact ⟨hne, Places.update_some.mpr (.inr ⟨hne, hp⟩)⟩

theorem Places.update_none {place : Places} {q p : ℕ} {x : ℕ × List ℕ} :
    update place q none p = some x ↔ p ≠ q ∧ place p = some x := by
  by_cases hpq : p = q
  · rw [hpq]
    simp
  · simp [hpq]

theorem Places.append_inj {m m' i j : ℕ} {π π' : List ℕ} (h : (m, π ++ [i]) = (m', π' ++ [j])) :
    m = m' ∧ π = π' ∧ i = j := by
  simp only [Prod.mk.injEq, append_singleton_inj] at h
  exact h

namespace PtEntry

def Links (e : PtEntry) : Prop := e.has ptePresent ∧ e.has pteHuge = false

instance (e : PtEntry) : Decidable e.Links := inferInstanceAs (Decidable (_ ∧ _))

end PtEntry

namespace Mmu

/-- A path from `π` on inside the tree. -/
def OwnPath (own : List ℕ → ℕ → Prop) : List ℕ → List ℕ → Prop
  | _, [] => True
  | π, i :: is => own π i ∧ OwnPath own (π ++ [i]) is

/-- Entries at the indices `own` belong to the tree of their table, and with `big` a directory may
hold 2 MiB pages. -/
structure Forest (own : List ℕ → ℕ → Prop) (big : Prop) (s : Mmu) (place : Places) : Prop where
  root : ∀ p m, place p = some (m, []) → p = m
  length_le : ∀ p m π, place p = some (m, π) → π.length ≤ 3
  below : ∀ t m π i, place t = some (m, π) → π.length < 3 → own π i → (s.entry t i).has ptePresent →
    ((s.entry t i).has pteHuge = false ∧ place (s.entry t i).frame = some (m, π ++ [i])) ∨
      (big ∧ π.length = 2 ∧ (s.entry t i).has pteHuge)
  above : ∀ q m π i, place q = some (m, π ++ [i]) → own π i ∧
    ∃ t, place t = some (m, π) ∧ (s.entry t i).Links ∧ (s.entry t i).frame = q

variable {own : List ℕ → ℕ → Prop} {big : Prop} {s s' : Mmu} {place : Places} {t q m i : ℕ}
  {π : List ℕ}

theorem Forest.empty (own : List ℕ → ℕ → Prop) (big : Prop) (s : Mmu) :
    Forest own big s fun _ => none := by
  constructor
  · nofun
  · nofun
  · nofun
  · nofun

section
variable (h : Forest own big s place)
include h

theorem Forest.inj (hp : place t = some (m, π)) (hq : place q = some (m, π)) : t = q := by
  induction π using List.reverseRecOn generalizing t q with
  | nil => rw [h.root t m hp, h.root q m hq]
  | append_singleton π i ih =>
    obtain ⟨-, t', ht', -, rfl⟩ := h.above t m π i hp
    obtain ⟨-, q', hq', -, rfl⟩ := h.above q m π i hq
    rw [ih ht' hq']

theorem Forest.root_placed (hp : place t = some (m, π)) :
    place m = some (m, []) := by
  induction π using List.reverseRecOn generalizing t with
  | nil =>
    have := h.root t m hp
    rwa [this] at hp
  | append_singleton π i ih =>
    obtain ⟨-, t', ht', -⟩ := h.above t m π i hp
    exact ih ht'

theorem Forest.length_lt (hq : place q = some (m, π ++ [i])) :
    π.length < 3 := by
  have := h.length_le q m _ hq
  rw [length_append, length_singleton] at this
  omega

theorem Forest.congr (hsame : ∀ t m π i, place t = some (m, π) → π.length < 3 → own π i →
      (s'.entry t i).has ptePresent = (s.entry t i).has ptePresent ∧
      (s'.entry t i).has pteHuge = (s.entry t i).has pteHuge ∧
      (s'.entry t i).frame = (s.entry t i).frame) : Forest own big s' place := by
  constructor
  · exact h.root
  · exact h.length_le
  · intro t m π i ht hlen hi hp
    obtain ⟨h1, h2, h3⟩ := hsame t m π i ht hlen hi
    rw [h1] at hp
    rw [h2, h3]
    exact h.below t m π i ht hlen hi hp
  · intro q m π i hq
    obtain ⟨hi, t, ht, hl, hf⟩ := h.above q m π i hq
    obtain ⟨h1, h2, h3⟩ := hsame t m π i ht (h.length_lt hq) hi
    exact ⟨hi, t, ht, ⟨by rw [h1]; exact hl.1, by rw [h2]; exact hl.2⟩, by rw [h3]; exact hf⟩

theorem Forest.setEntry
    (hw : ∀ m π, place t = some (m, π) → π.length < 3 → own π i → ¬ (s.entry t i).Links ∧
      ((s'.entry t i).has ptePresent → big ∧ π.length = 2 ∧ (s'.entry t i).has pteHuge))
    (hsame : ∀ p j, ¬ (p = t ∧ j = i) → s'.entry p j = s.entry p j) : Forest own big s' place := by
  constructor
  · exact h.root
  · exact h.length_le
  · intro p m π j hp hlen hj hpj
    by_cases hti : p = t ∧ j = i
    · obtain ⟨rfl, rfl⟩ := hti
      exact .inr ((hw m π hp hlen hj).2 hpj)
    · rw [hsame p j hti] at hpj ⊢
      exact h.below p m π j hp hlen hj hpj
  · intro q m π j hq
    obtain ⟨hj, t', ht', hl, hf⟩ := h.above q m π j hq
    have hti : ¬ (t' = t ∧ j = i) := by
      rintro ⟨rfl, rfl⟩
      exact (hw m π ht' (h.length_lt hq) hj).1 hl
    exact ⟨hj, t', ht', by rw [hsame t' j hti]; exact hl, by rw [hsame t' j hti]; exact hf⟩

section
variable (ht : place t = some (m, π))
include ht

theorem Forest.below_of_links
    (hlen : π.length < 3) (hi : own π i) (hl : (s.entry t i).Links) :
    place (s.entry t i).frame = some (m, π ++ [i]) := by
  rcases h.below t m π i ht hlen hi hl.1 with hb | ⟨-, -, hh⟩
  · exact hb.2
  · simp [hl.2] at hh

theorem Forest.not_below
    (hnot : ¬ (s.entry t i).Links) (rest : List ℕ) : place q ≠ some (m, π ++ i :: rest) := by
  induction rest using List.reverseRecOn generalizing q with
  | nil =>
    intro hq
    obtain ⟨-, t', ht', hl, -⟩ := h.above q m π i hq
    rw [← h.inj ht ht'] at hl
    exact hnot hl
  | append_singleton rest j ih =>
    intro hq
    obtain ⟨-, t', ht', -⟩ := h.above q m (π ++ i :: rest) j (by rw [hq, append_assoc]; rfl)
    exact ih ht'

theorem Forest.insert
    (hlen : π.length < 3) (hi : own π i) (hnot : ¬ (s.entry t i).Links)
    (hq : place q = none) (hl : (s'.entry t i).Links) (hframe : (s'.entry t i).frame = q)
    (hempty : π.length < 2 → ∀ j, (s'.entry q j).has ptePresent = false)
    (hsame : ∀ p j, p ≠ q → ¬ (p = t ∧ j = i) → s'.entry p j = s.entry p j) :
    Forest own big s' (update place q (some (m, π ++ [i]))) := by
  constructor
  · intro p m' hp
    rcases Places.update_some.mp hp with ⟨-, hx⟩ | ⟨-, hp⟩
    · have := congrArg Prod.snd hx
      simp at this
    · exact h.root p m' hp
  · intro p m' π' hp
    rcases Places.update_some.mp hp with ⟨-, hx⟩ | ⟨-, hp⟩
    · obtain ⟨rfl, rfl⟩ := Prod.mk.inj hx
      rw [length_append, length_singleton]
      omega
    · exact h.length_le p m' π' hp
  · intro p m' π' j hp hlen' hj hpj
    rcases Places.update_some.mp hp with ⟨rfl, hx⟩ | ⟨hpq, hp'⟩
    · obtain ⟨rfl, rfl⟩ := Prod.mk.inj hx
      rw [length_append, length_singleton] at hlen'
      simp [hempty (by omega) j] at hpj
    · by_cases hti : p = t ∧ j = i
      · obtain ⟨rfl, rfl⟩ := hti
        cases hp'.symm.trans ht
        left
        rw [hframe, update_self]
        exact ⟨hl.2, rfl⟩
      · rw [hsame p j hpq hti] at hpj ⊢
        rcases h.below p m' π' j hp' hlen' hj hpj with hb | hb
        · exact .inl ⟨hb.1, (Places.update_new hq hb.2 _).2⟩
        · exact .inr hb
  · intro p m' π' j hp
    rcases Places.update_some.mp hp with ⟨rfl, hx⟩ | ⟨hpq, hp⟩
    · obtain ⟨rfl, rfl, rfl⟩ := Places.append_inj hx
      exact ⟨hi, t, (Places.update_new hq ht _).2, hl, hframe⟩
    · obtain ⟨hj, t', ht', hlj, hf⟩ := h.above p m' π' j hp
      have hti : ¬ (t' = t ∧ j = i) := by
        rintro ⟨rfl, rfl⟩
        exact hnot hlj
      obtain ⟨hne, hnew⟩ := Places.update_new hq ht' (m, π ++ [i])
      refine ⟨hj, t', hnew, ?_, ?_⟩
      · rw [hsame t' j hne hti]
        exact hlj
      · rw [hsame t' j hne hti]
        exact hf

end

theorem Forest.erase (hq : place q = some (m, π ++ [i])) (ht : place t = some (m, π))
    (hempty : ∀ j, own (π ++ [i]) j → π.length < 2 → ¬ (s.entry q j).Links)
    (hclear : (s'.entry t i).has ptePresent → big ∧ π.length = 2 ∧ (s'.entry t i).has pteHuge)
    (hsame : ∀ p j, p ≠ q → ¬ (p = t ∧ j = i) → s'.entry p j = s.entry p j) :
    Forest own big s' (update place q none) := by
  have hfromt : (s.entry t i).frame = q := by
    obtain ⟨-, t', ht', -, hf⟩ := h.above q m π i hq
    rw [h.inj ht ht']
    exact hf
  constructor
  · intro p m' hp
    exact h.root p m' (Places.update_none.mp hp).2
  · intro p m' π' hp
    exact h.length_le p m' π' (Places.update_none.mp hp).2
  · intro p m' π' j hp hlen hj hpj
    obtain ⟨hpq, hp⟩ := Places.update_none.mp hp
    by_cases hti : p = t ∧ j = i
    · obtain ⟨rfl, rfl⟩ := hti
      cases hp.symm.trans ht
      exact .inr (hclear hpj)
    · rw [hsame p j hpq hti] at hpj ⊢
      rcases h.below p m' π' j hp hlen hj hpj with hb | hb
      · refine .inl ⟨hb.1, Places.update_none.mpr ⟨?_, hb.2⟩⟩
        -- only the entry that changed named the table that goes
        intro hc
        rw [hc] at hb
        obtain ⟨rfl, rfl, hij⟩ := Places.append_inj (Option.some.inj (hb.2.symm.trans hq))
        exact hti ⟨h.inj hp ht, hij⟩
      · exact .inr hb
  · intro p m' π' j hp
    obtain ⟨hpq, hp'⟩ := Places.update_none.mp hp
    obtain ⟨hj, t', ht', hlj, hf⟩ := h.above p m' π' j hp'
    have ht'q : t' ≠ q := by
      rintro rfl
      cases ht'.symm.trans hq
      have hlen := h.length_le p _ _ hp'
      simp only [length_append, length_singleton] at hlen
      exact hempty j hj (by omega) hlj
    have hti : ¬ (t' = t ∧ j = i) := by
      rintro ⟨rfl, rfl⟩
      exact hpq (hf.symm.trans hfromt)
    refine ⟨hj, t', Places.update_none.mpr ⟨ht'q, ht'⟩, ?_, ?_⟩
    · rw [hsame t' j ht'q hti]
      exact hlj
    · rw [hsame t' j ht'q hti]
      exact hf

theorem Forest.addRoot (hq : place q = none)
    (hempty : ∀ i, own [] i → (s'.entry q i).has ptePresent = false)
    (hsame : ∀ p, p ≠ q → s'.entry p = s.entry p) :
    Forest own big s' (update place q (some (q, []))) := by
  constructor
  · intro p m' hp
    rcases Places.update_some.mp hp with ⟨hpq, hx⟩ | ⟨-, hp⟩
    · rw [hpq]
      exact (congrArg Prod.fst hx).symm
    · exact h.root p m' hp
  · intro p m' π' hp
    rcases Places.update_some.mp hp with ⟨-, hx⟩ | ⟨-, hp⟩
    · obtain ⟨rfl, rfl⟩ := Prod.mk.inj hx
      simp
    · exact h.length_le p m' π' hp
  · intro p m' π' j hp hlen hj hpj
    rcases Places.update_some.mp hp with ⟨rfl, hx⟩ | ⟨hpq, hp⟩
    · obtain ⟨rfl, rfl⟩ := Prod.mk.inj hx
      simp [hempty j hj] at hpj
    · rw [hsame p hpq] at hpj ⊢
      rcases h.below p m' π' j hp hlen hj hpj with hb | hb
      · exact .inl ⟨hb.1, (Places.update_new hq hb.2 _).2⟩
      · exact .inr hb
  · intro p m' π' j hp
    rcases Places.update_some.mp hp with ⟨-, hx⟩ | ⟨hpq, hp⟩
    · have := congrArg Prod.snd hx
      simp at this
    · obtain ⟨hj, t', ht', hlj, hf⟩ := h.above p m' π' j hp
      obtain ⟨hne, hnew⟩ := Places.update_new hq ht' (q, [])
      refine ⟨hj, t', hnew, ?_, ?_⟩
      · rw [hsame t' hne]
        exact hlj
      · rw [hsame t' hne]
        exact hf

end

end Mmu
end Doppio
