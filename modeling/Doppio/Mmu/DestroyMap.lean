import Doppio.Mmu.UnmapPage

/-! `mmu_destroy_map` on the address spaces: all entries and all tables of one map go. -/
namespace Doppio
open Buddy List
namespace Mmu
open Pmm Loop

def withoutBelow (A : Mappings) (m N : ℕ) : Mappings := fun k =>
  if k.1 = m ∧ k.2 < N then none else A k

theorem withoutBelow_sub {A : Mappings} {m N : ℕ} {k : ℕ × ℕ} {e : PtEntry}
    (h : withoutBelow A m N k = some e) : A k = some e := by
  unfold withoutBelow at h
  split_ifs at h
  exact h

theorem withoutBelow_zero (A : Mappings) (m : ℕ) : withoutBelow A m 0 = A := by
  unfold withoutBelow
  simp

theorem withoutBelow_succ (A : Mappings) (m N : ℕ) :
    withoutBelow A m (N + 1) = Function.update (withoutBelow A m N) (m, N) none := by
  funext ⟨m', v⟩
  unfold withoutBelow
  by_cases hk : (m', v) = (m, N)
  · obtain ⟨rfl, rfl⟩ := Prod.mk.inj hk
    simp
  · rw [Function.update_of_ne hk]
    have : (m' = m ∧ v < N + 1) ↔ (m' = m ∧ v < N) := by
      constructor
      · rintro ⟨rfl, hv⟩
        refine ⟨rfl, ?_⟩
        have : v ≠ N := fun hc => hk (by rw [hc])
        omega
      · rintro ⟨rfl, hv⟩
        exact ⟨rfl, by omega⟩
    simp only [this]

theorem withoutBelow_skip {A : Mappings} {m N N' : ℕ} (hle : N ≤ N')
    (h : ∀ v, N ≤ v → v < N' → A (m, v) = none) : withoutBelow A m N' = withoutBelow A m N := by
  funext ⟨m', v⟩
  unfold withoutBelow
  by_cases hN : m' = m ∧ v < N
  · rw [if_pos hN, if_pos ⟨hN.1, by omega⟩]
  · split_ifs with hN'
    · obtain ⟨rfl, hv⟩ := hN'
      rw [h v (by by_contra hc; exact hN ⟨rfl, by omega⟩) hv]
    · rfl

/-- `vmm_destroy_map` before the page `N`: no table changes, the frames below `N` are given up, and
the tables in `keep` are still allocated. -/
structure Destroying (s₀ : Mmu) (live : Set ℕ) (alloc₀ : Set Block) (pages : Set ℕ) (m N : ℕ)
    (keep : Set ℕ) (s : Mmu) : Prop where
  entry : s.entry = s₀.entry
  kernelMap : s.kernelMap = s₀.kernelMap
  held : ∃ free alloc, s.pmm.Held free alloc pages keep (withoutBelow (s₀.mappings live) m N) ∧
    alloc ⊆ alloc₀ ∧ Releases (s₀.mappings live) alloc (withoutBelow (s₀.mappings live) m N)

variable {s₀ s : Mmu} {live : Set ℕ} {alloc₀ : Set Block} {pages keep K : Set ℕ} {m N t : ℕ}
  {place : Places} {free₀ : ℕ → List ℕ} {π : List ℕ}

section
variable (h : Destroying s₀ live alloc₀ pages m N keep s)
include h

theorem Destroying.mono {keep' : Set ℕ}
    (hsub : keep' ⊆ keep) : Destroying s₀ live alloc₀ pages m N keep' s := by
  obtain ⟨free, alloc, hheld, hrest⟩ := h.held
  exact ⟨h.entry, h.kernelMap, free, alloc, hheld.mono hsub, hrest⟩

theorem Destroying.skip {N' : ℕ} (hle : N ≤ N')
    (hnone : ∀ v, N ≤ v → v < N' → s₀.mappings live (m, v) = none) :
    Destroying s₀ live alloc₀ pages m N' keep s := by
  obtain ⟨h1, h2, h3⟩ := h
  rw [← withoutBelow_skip hle hnone] at h3
  exact ⟨h1, h2, h3⟩

theorem Destroying.drop {e : PtEntry} (hfin : {k | s₀.mappings live k ≠ none}.Finite)
    (hfew : ∀ f, refs (s₀.mappings live) f < 2 ^ 32) (hk : s₀.mappings live (m, N) = some e) :
    Destroying s₀ live alloc₀ pages m (N + 1) keep (s.dropRef e.addr 0) := by
  obtain ⟨free, alloc, hheld, hsub, hrel⟩ := h.held
  have hk' : withoutBelow (s₀.mappings live) m N (m, N) = some e := by
    unfold withoutBelow
    rw [if_neg (by simp), hk]
  have hle (f : ℕ) : refs (withoutBelow (s₀.mappings live) m N) f ≤ refs (s₀.mappings live) f :=
    Naming.count_le hfin (fun _ e he => ⟨e, withoutBelow_sub he, rfl⟩) f
  obtain ⟨pmm', free', he, hheld'⟩ := dropRef_spec hheld hk' ((hle _).trans_lt (hfew _))
  rw [← withoutBelow_succ] at hheld'
  rw [he]
  refine ⟨h.entry, h.kernelMap, free', _, hheld', ?_, ?_⟩
  · split_ifs
    · exact Set.sdiff_subset.trans hsub
    · exact hsub
  · intro f hpos hzero
    have hrefs : refs (Function.update (withoutBelow (s₀.mappings live) m N) (m, N) none) f +
        (if e.frame = f then 1 else 0) = refs (withoutBelow (s₀.mappings live) m N) f :=
      Naming.count_erase hheld.finite hk' f
    rw [withoutBelow_succ] at hzero
    rw [hzero] at hrefs
    by_cases hf : e.frame = f
    · rw [if_pos hf] at hrefs
      rw [hf, if_pos hrefs.symm]
      simp
    · rw [if_neg hf] at hrefs
      have := hrel f hpos hrefs.symm
      split_ifs
      · exact fun hc => this hc.1
      · exact this

theorem Destroying.free (ht : t ∈ keep) :
    ∃ s', s.pageFree (t * pageSize) 0 = some s' ∧
      Destroying s₀ live alloc₀ pages m N (keep \ {t}) s' := by
  obtain ⟨free, alloc, hheld, hsub, hrel⟩ := h.held
  obtain ⟨pmm', free', he, hheld'⟩ :=
    pageFree_unmapped hheld (hheld.keep_alloc t ht) (hheld.keep_ne t ht)
  exact ⟨_, he, h.entry, h.kernelMap, free', _, hheld', Set.sdiff_subset.trans hsub,
    fun f hpos hzero hf => hrel f hpos hzero hf.1⟩

end

section
variable (place : Places)

def tablesBelow (m : ℕ) (π : List ℕ) : Set ℕ :=
  {p | ∃ rest, place p = some (m, π ++ rest)}

/-- Those left when the loop over the table at `π` is at `i`. -/
def tablesLeft (m : ℕ) (π : List ℕ) (i : ℕ) : Set ℕ :=
  {p | ∃ rest, place p = some (m, π ++ rest) ∧ ∀ j r, rest = j :: r → i ≤ j}

theorem tablesLeft_zero (m : ℕ) (π : List ℕ) :
    tablesLeft place m π 0 = tablesBelow place m π := by
  unfold tablesLeft tablesBelow
  simp

theorem tablesLeft_succ (m : ℕ) (π : List ℕ) (i : ℕ) :
    tablesLeft place m π i = tablesLeft place m π (i + 1) ∪ tablesBelow place m (π ++ [i]) := by
  ext p
  constructor
  · rintro ⟨rest, hp, hi⟩
    cases rest with
    | nil => exact .inl ⟨[], hp, by simp⟩
    | cons j r =>
      by_cases hj : j = i
      · right
        refine ⟨r, ?_⟩
        rw [hp, hj, append_assoc]
        rfl
      · left
        refine ⟨j :: r, hp, ?_⟩
        rintro j' r' ⟨⟩
        have := hi j r rfl
        omega
  · rintro (⟨rest, hp, hi⟩ | ⟨rest, hp⟩)
    · exact ⟨rest, hp, fun j r hj => by have := hi j r hj; omega⟩
    · refine ⟨i :: rest, ?_, ?_⟩
      · rw [hp, append_assoc]
        rfl
      · rintro j r ⟨⟩
        exact le_rfl

theorem disjoint_tablesLeft (m : ℕ) (π : List ℕ) (i : ℕ) :
    Disjoint (tablesLeft place m π (i + 1)) (tablesBelow place m (π ++ [i])) := by
  rw [Set.disjoint_left]
  rintro p ⟨rest, hp, hi⟩ ⟨rest', hp'⟩
  obtain ⟨-, hr⟩ := Prod.mk.inj (Option.some.inj (hp.symm.trans hp'))
  rw [append_assoc, append_cancel_left_eq] at hr
  have := hi i rest' hr
  omega

theorem tablesBelow_child_sub (m : ℕ) (π : List ℕ) (i : ℕ) :
    tablesBelow place m (π ++ [i]) ⊆ tablesBelow place m π := by
  rintro p ⟨rest, hp⟩
  rw [append_assoc] at hp
  exact ⟨_, hp⟩

end

section
variable {i j k pt pd pdpt : ℕ} (h₀ : s₀.Inv live place free₀ alloc₀ pages)
include h₀

theorem destroyTable_spec {n : ℕ} (page : ℕ → ℕ) {body : ℕ → Mmu → Option Mmu}
    (hrows : Rows n π page) (ht : place t = some (m, π)) (hK : Disjoint K (tablesBelow place m π))
    (hskip : ∀ i s, s.entry = s₀.entry → (s₀.entry t i).has ptePresent = false → body i s = some s)
    (hbody : ∀ i < n, (s₀.entry t i).has ptePresent → (s₀.entry t i).has pteHuge = false →
      place (s₀.entry t i).frame = some (m, π ++ [i]) → ∀ K s,
      Disjoint K (tablesBelow place m (π ++ [i])) →
      Destroying s₀ live alloc₀ pages m (page i) (K ∪ tablesBelow place m (π ++ [i])) s →
      ∃ s', body i s = some s' ∧ Destroying s₀ live alloc₀ pages m (page (i + 1)) K s')
    (h : Destroying s₀ live alloc₀ pages m (page 0) (K ∪ tablesBelow place m π) s) :
    ∃ s', (forUpTo body n s).bind (fun s => s.pageFree (t * pageSize) 0) = some s' ∧
      Destroying s₀ live alloc₀ pages m (page n) K s' := by
  obtain ⟨s1, he1, h₁⟩ : ∃ s', forUpTo body n s = some s' ∧
      Destroying s₀ live alloc₀ pages m (page n) (K ∪ tablesLeft place m π n) s' := by
    apply forUpTo_invariant
      (fun i s => Destroying s₀ live alloc₀ pages m (page i) (K ∪ tablesLeft place m π i) s)
    · rw [tablesLeft_zero]
      exact h
    · intro i hi s hs
      rw [tablesLeft_succ, ← Set.union_assoc] at hs
      cases hp : (s₀.entry t i).has ptePresent with
      | true =>
        obtain ⟨hhuge, hbelow⟩ := h₀.placed.below t m π i ht hrows.length (hrows.idx i hi) hp
        apply hbody i hi hp hhuge hbelow _ _ _ hs
        rw [Set.disjoint_union_left]
        exact ⟨hK.mono_right (tablesBelow_child_sub place m π i), disjoint_tablesLeft place m π i⟩
      | false =>
        refine ⟨s, hskip i s hs.entry hp, (hs.mono Set.subset_union_left).skip (hrows.le i) ?_⟩
        intro v h1 h2
        obtain ⟨rest, hv⟩ := hrows.below i hi v h1 h2
        exact h₀.unmapped rest ht hp hv
  obtain ⟨s2, he2, h₂⟩ := h₁.free (t := t) (.inr ⟨[], by rw [append_nil]; exact ht, by simp⟩)
  refine ⟨s2, ?_, h₂.mono ?_⟩
  · rw [he1]
    exact he2
  · intro p hp
    refine ⟨.inl hp, ?_⟩
    rintro rfl
    exact Set.disjoint_left.mp hK hp ⟨[], by rw [append_nil]; exact ht⟩

variable (hfew : ∀ f, refs (s₀.mappings live) f < 2 ^ 32)
include hfew

theorem destroyPt_spec (hpt : place pt = some (m, [i, j, k])) (hi : i < 256) (hj : j < 512)
    (hk : k < 512) (hK : Disjoint K (tablesBelow place m [i, j, k]))
    (h : Destroying s₀ live alloc₀ pages m (pageNumber i j k 0)
      (K ∪ tablesBelow place m [i, j, k]) s) :
    ∃ s', s.destroyPt pt = some s' ∧
      Destroying s₀ live alloc₀ pages m (pageNumber i j (k + 1) 0) K s' := by
  have hmem : pt ∈ tablesBelow place m [i, j, k] := ⟨[], hpt⟩
  obtain ⟨s1, he1, h₁⟩ : ∃ s', forUpTo (fun l s =>
      let pte := s.entry pt l
      if pte.has ptePresent then some (s.dropRef pte.addr 0) else some s) 512 s = some s' ∧
      Destroying s₀ live alloc₀ pages m (pageNumber i j k 512)
        (K ∪ tablesBelow place m [i, j, k]) s' := by
    apply forUpTo_invariant (fun l s => Destroying s₀ live alloc₀ pages m (pageNumber i j k l)
      (K ∪ tablesBelow place m [i, j, k]) s) h
    intro l hl s hs
    obtain ⟨hpath, hmod⟩ := pagePath_pageNumber (show i < 512 by omega) hj hk hl
    have hsucc : pageNumber i j k (l + 1) = pageNumber i j k l + 1 := by
      unfold pageNumber
      omega
    simp only [hs.entry]
    rw [hsucc]
    cases hp : (s₀.entry pt l).has ptePresent with
    | true =>
      refine ⟨_, if_pos rfl, hs.drop h₀.held.finite hfew ?_⟩
      rw [h₀.placed.mappings_iff h₀.live_iff, hpath, hmod]
      refine ⟨?_, pt, hpt, rfl, hp⟩
      unfold pageNumber userPages
      omega
    | false =>
      refine ⟨s, if_neg (by simp), hs.skip (by omega) ?_⟩
      intro v h1 h2
      obtain rfl : v = pageNumber i j k l := by omega
      exact h₀.unmapped_leaf (hpath ▸ hpt) (hmod.symm ▸ hp)
  obtain ⟨s2, he2, h₂⟩ := h₁.free (.inr hmem)
  rw [(pageNumber_512 i j k).1]
  refine ⟨s2, ?_, h₂.mono ?_⟩
  · unfold destroyPt
    rw [he1]
    exact he2
  · intro p hp
    refine ⟨.inl hp, ?_⟩
    rintro rfl
    exact Set.disjoint_left.mp hK hp hmem

theorem destroyPd_spec (hpd : place pd = some (m, [i, j])) (hi : i < 256) (hj : j < 512)
    (hK : Disjoint K (tablesBelow place m [i, j]))
    (h : Destroying s₀ live alloc₀ pages m (pageNumber i j 0 0) (K ∪ tablesBelow place m [i, j]) s) :
    ∃ s', s.destroyPd pd = some s' ∧
      Destroying s₀ live alloc₀ pages m (pageNumber i (j + 1) 0 0) K s' := by
  rw [(pageNumber_512 i j 0).2.1]
  unfold destroyPd
  refine destroyTable_spec h₀ (fun k => pageNumber i j k 0) (rows_pd hi hj) hpd hK
    (fun k s hs hp => by simp [hs, hp]) ?_ h
  intro k hk hp hhuge hpt K s hK hs
  simp only [hs.entry, hp, hhuge]
  exact destroyPt_spec h₀ hfew hpt hi hj hk hK hs

theorem destroyPdpt_spec (hpdpt : place pdpt = some (m, [i])) (hi : i < 256)
    (hK : Disjoint K (tablesBelow place m [i]))
    (h : Destroying s₀ live alloc₀ pages m (pageNumber i 0 0 0) (K ∪ tablesBelow place m [i]) s) :
    ∃ s', s.destroyPdpt pdpt = some s' ∧
      Destroying s₀ live alloc₀ pages m (pageNumber (i + 1) 0 0 0) K s' := by
  rw [(pageNumber_512 i 0 0).2.2]
  unfold destroyPdpt
  refine destroyTable_spec h₀ (fun j => pageNumber i j 0 0) (rows_pdpt hi) hpdpt hK
    (fun j s hs hp => by simp [hs, hp]) ?_ h
  intro j hj hp hhuge hpd K s hK hs
  simp only [hs.entry, hp, hhuge]
  exact destroyPd_spec h₀ hfew hpd hi hj hK hs

theorem vmmDestroyMap_spec (hm : m ∈ live) :
    ∃ s' place' free' alloc', s₀.vmmDestroyMap m = some s' ∧
      s'.Inv (live \ {m}) place' free' alloc' pages ∧
      (∀ k, s'.mappings (live \ {m}) k = if k.1 = m then none else s₀.mappings live k) ∧
      alloc' ⊆ alloc₀ ∧ Releases (s₀.mappings live) alloc' (s'.mappings (live \ {m})) := by
  have hroot := (h₀.live_iff m).mp hm
  have hmk : m ≠ s₀.kernelMap := by
    intro hc
    simp [hc, h₀.kernel] at hroot
  let K := tables s₀.kernelMap (withoutMap place m)
  have hK : Disjoint K (tablesBelow place m []) := by
    rw [Set.disjoint_left]
    rintro p hp ⟨π, hπ⟩
    rcases hp with rfl | hp
    · simp [h₀.kernel] at hπ
    · apply hp
      unfold withoutMap
      rw [if_pos ⟨π, hπ⟩]
  have hstart : Destroying s₀ live alloc₀ pages m (pageNumber 0 0 0 0)
      (K ∪ tablesBelow place m []) s₀ := by
    refine ⟨rfl, rfl, free₀, alloc₀, ?_, subset_rfl, ?_⟩
    · rw [show pageNumber 0 0 0 0 = 0 from rfl, withoutBelow_zero]
      apply h₀.held.mono
      rintro p ((rfl | hp) | ⟨π, hπ⟩)
      · exact .inl rfl
      · obtain ⟨⟨m', π'⟩, hx⟩ := Option.ne_none_iff_exists'.mp hp
        exact h₀.table_mem (withoutMap_eq_some.mp hx).1
      · exact h₀.table_mem hπ
    · rw [show pageNumber 0 0 0 0 = 0 from rfl, withoutBelow_zero]
      intro f hpos hzero
      omega
  obtain ⟨s', he, h'⟩ : ∃ s', s₀.vmmDestroyMap m = some s' ∧
      Destroying s₀ live alloc₀ pages m (pageNumber 256 0 0 0) K s' := by
    unfold vmmDestroyMap
    rw [if_neg hmk]
    refine destroyTable_spec h₀ (fun i => pageNumber i 0 0 0) rows_pml4 hroot hK
      (fun i s hs hp => by simp [hs, hp]) ?_ hstart
    intro i hi hp hhuge hpdpt K s hK hs
    simp only [hs.entry, hp, hhuge]
    exact destroyPdpt_spec h₀ hfew hpdpt hi hK hs
  obtain ⟨free', alloc', hheld, hsub, hrel⟩ := h'.held
  have hplaced : s'.Placed (withoutMap place m) :=
    (h₀.placed.withoutMap m).congr fun _ _ _ _ _ _ _ => by rw [h'.entry]; exact ⟨rfl, rfl, rfl⟩
  have hlive (x : ℕ) : x ∈ live \ {m} ↔ withoutMap place m x = some (x, []) := by
    rw [withoutMap_eq_some, ← h₀.live_iff]
    rfl
  have hmap : s'.mappings (live \ {m}) =
      withoutBelow (s₀.mappings live) m (pageNumber 256 0 0 0) := by
    funext k
    apply Option.ext
    intro e
    unfold withoutBelow
    rw [hplaced.mappings_iff hlive, h'.entry]
    simp only [withoutMap_eq_some]
    constructor
    · rintro ⟨hv, q, ⟨hq, hne⟩, he⟩
      rw [if_neg fun hc => hne hc.1]
      exact (h₀.placed.mappings_iff h₀.live_iff).mpr ⟨hv, q, hq, he⟩
    · intro hif
      split_ifs at hif with hc
      obtain ⟨hv, q, hq, he⟩ := (h₀.placed.mappings_iff h₀.live_iff).mp hif
      refine ⟨hv, q, ⟨hq, ?_⟩, he⟩
      intro hm'
      exact hc ⟨hm', hv⟩
  refine ⟨s', withoutMap place m, free', alloc', he, ⟨hplaced, hlive, ?_, ?_⟩, ?_,
    hsub, ?_⟩
  · rw [h'.kernelMap]
    unfold withoutMap
    split_ifs
    · rfl
    · exact h₀.kernel
  · rw [hmap, h'.kernelMap]
    exact hheld
  · rintro ⟨m', v⟩
    rw [hmap]
    unfold withoutBelow
    by_cases hm' : m' = m
    · split_ifs with hc
      · rfl
      · by_contra hne
        obtain ⟨e, he⟩ := Option.ne_none_iff_exists'.mp hne
        exact hc ⟨hm', ((h₀.placed.mappings_iff h₀.live_iff).mp he).1⟩
    · rw [if_neg hm', if_neg fun hc => hm' hc.1]
  · rw [hmap]
    exact hrel

end

end Mmu
end Doppio
