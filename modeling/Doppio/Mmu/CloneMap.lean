import Doppio.Mmu.AddressSpaces

/-! `mmu_create_map` and `mmu_clone_map` on the address spaces. -/
namespace Doppio
open Function Prod
open Buddy List Option Set
namespace Mmu
open Pmm Loop

variable {s s' : Mmu} {live : Set ℕ} {place place' : Places} {free free' : ℕ → List ℕ}
  {alloc alloc' : Set Block} {pages : Set ℕ}

theorem vmmCreateUserMap_spec (h : s.Inv live place free alloc pages) :
    (∃ s' p free', s.vmmCreateUserMap = some (s', some p) ∧
      s'.Inv (insert p live) (update place p (some (p, []))) free' (insert ⟨p, 0⟩ alloc)
        pages ∧ place p = none ∧
      Extends 1 s place free alloc s' (update place p (some (p, []))) free' (insert ⟨p, 0⟩ alloc) ∧
      s'.mappings (insert p live) = s.mappings live) ∨
    (∃ s', s.vmmCreateUserMap = some (s', none) ∧ s'.Inv live place free alloc pages ∧
      s'.mappings live = s.mappings live ∧ s'.kernelMap = s.kernelMap ∧ freePages free = ∅) := by
  rcases h.held.pmmAllocPages with
    ⟨pmm1, free1, p, he, hheld, hfresh, -, -, hsub, hroom⟩ | ⟨pmm1, he, hheld, -, hempty⟩
  · left
    obtain ⟨hpn, hpk⟩ := h.fresh hfresh
    have hunnamed (k : ℕ × ℕ) (e : PtEntry) (hk : s.mappings live k = some e) : e.frame ≠ p := by
      rintro rfl
      exact hfresh (h.held.named_alloc k e hk)
    let s1 : Mmu := { s with pmm := pmm1 }.zeroPage p
    let s2 : Mmu := { s1 with entry := update s1.entry p fun i =>
      if 256 ≤ i ∧ i < 512 then s1.entry s1.kernelMap i else s1.entry p i }
    have hother (q : ℕ) (hq : q ≠ p) : s2.entry q = s.entry q := by
      simp [s2, s1, zeroPage, hq]
    have hzero (i : ℕ) (hi : ¬ (256 ≤ i ∧ i < 512)) : s2.entry p i = 0 := by
      simp [s2, s1, hi]
    have hplaced : s2.Placed (update place p (some (p, []))) := by
      apply h.placed.addRoot hpn
      · intro i hi
        rw [hzero i (by omega), PtEntry.zero_has]
      · exact hother
    have hlive (x : ℕ) : x ∈ insert p live ↔ update place p (some (p, [])) x = some (x, []) := by
      by_cases hx : x = p
      · simp [hx]
      · rw [update_of_ne hx, ← h.live_iff]
        simp [hx]
    have hmap : s2.mappings (insert p live) = s.mappings live := by
      apply mappings_congr h.placed hplaced h.live_iff hlive
      intro m v e _
      constructor
      · rintro ⟨q, hq, hqe⟩
        by_cases hqp : q = p
        · rw [hqp] at hq
          simp [pagePath] at hq
        · rw [update_of_ne hqp] at hq
          rw [hother q hqp] at hqe
          exact ⟨q, hq, hqe⟩
      · rintro ⟨q, hq, hqe⟩
        have hqp : q ≠ p := by
          rintro rfl
          simp [hpn] at hq
        refine ⟨q, by rw [update_of_ne hqp, hq], ?_⟩
        rw [hother q hqp]
        exact hqe
    have hkeep : tables s.kernelMap (update place p (some (p, []))) =
        insert p (tables s.kernelMap place) := by
      unfold tables
      ext x
      by_cases hx : x = p <;> simp [hx]
    refine ⟨s2, p, free1, ?_, ⟨hplaced, hlive, ?_, ?_⟩, hpn,
      ⟨?_, subset_insert _ _, rfl, hsub, hroom⟩, hmap⟩
    · unfold vmmCreateUserMap pageAlloc
      rw [he]
      rfl
    · change update place p _ s.kernelMap = none
      rw [update_of_ne hpk.symm]
      exact h.kernel
    · rw [hmap]
      change pmm1.Held free1 _ pages (tables s.kernelMap _) _
      rw [hkeep]
      exact hheld.insert_keep (mem_insert _ _) hunnamed
    · intro q hq
      rw [update_of_ne]
      rintro rfl
      exact hfresh hq
  · right
    refine ⟨{ s with pmm := pmm1 }, ?_, ⟨h.placed.congr fun _ _ _ _ _ _ _ => ⟨rfl, rfl, rfl⟩,
      h.live_iff, h.kernel, hheld⟩, rfl, rfl, hempty⟩
    unfold vmmCreateUserMap pageAlloc
    rw [he]
    rfl

theorem cloneFlags_spec (e : PtEntry) :
    cloneFlags e &&& pageAddrMask = 0 ∧ (cloneFlags e).has ptePresent = e.has ptePresent ∧
      (cloneFlags e).has pteShared = e.has pteShared ∧
      (e.has pteShared = false → (cloneFlags e).has pteWritable = false) := by
  have hW := e.compl_mask_has (show ~~~pageAddrMask &&& pteWritable = pteWritable by decide)
  have hS := e.compl_mask_has (show ~~~pageAddrMask &&& pteShared = pteShared by decide)
  have hP := e.compl_mask_has (show ~~~pageAddrMask &&& ptePresent = ptePresent by decide)
  have h0 := e.compl_mask_and_mask
  unfold cloneFlags
  simp only
  rw [hW, hS]
  split_ifs with hif
  · refine ⟨?_, ?_, ?_, ?_⟩
    · rw [BitVec.and_or_distrib_right, BitVec.and_assoc, BitVec.and_comm (~~~pteWritable),
        ← BitVec.and_assoc, h0]
      decide
    · rw [PtEntry.has_or, PtEntry.has_and, show ~~~pteWritable &&& ptePresent = ptePresent by decide,
        hP, show pteCow.has ptePresent = false by decide, Bool.or_false]
    · rw [PtEntry.has_or, PtEntry.has_and, show ~~~pteWritable &&& pteShared = pteShared by decide,
        hS, show pteCow.has pteShared = false by decide, Bool.or_false]
    · intro _
      rw [PtEntry.has_or, PtEntry.has_and, show ~~~pteWritable &&& pteWritable = 0 by decide,
        PtEntry.has_zero]
      decide
  · refine ⟨h0, hP, hS, ?_⟩
    intro hs
    rw [hW]
    simpa [hs] using hif

def clonedPte (e : PtEntry) : PtEntry := (e &&& pageAddrMask) ||| cloneFlags e

theorem clonedPte_spec (e : PtEntry) :
    (clonedPte e).frame = e.frame ∧ (clonedPte e).has ptePresent = e.has ptePresent ∧
      (clonedPte e).has pteShared = e.has pteShared ∧
      (e.has pteShared = false → (clonedPte e).has pteWritable = false) := by
  obtain ⟨h0, hp, hs, hw⟩ := cloneFlags_spec e
  unfold clonedPte
  refine ⟨?_, ?_, ?_, ?_⟩
  · rw [PtEntry.frame_or _ h0, PtEntry.frame_mask]
  · rw [PtEntry.has_or, PtEntry.mask_has e (by decide), Bool.false_or, hp]
  · rw [PtEntry.has_or, PtEntry.mask_has e (by decide), Bool.false_or, hs]
  · intro h
    rw [PtEntry.has_or, PtEntry.mask_has e (by decide), Bool.false_or, hw h]

variable {e : PtEntry}

theorem clonedPte_eq_self (h : (e.has pteWritable && !e.has pteShared) = false) :
    clonedPte e = e := by
  unfold clonedPte cloneFlags
  simp only
  rw [e.compl_mask_has (show ~~~pageAddrMask &&& pteWritable = pteWritable by decide),
    e.compl_mask_has (show ~~~pageAddrMask &&& pteShared = pteShared by decide), h]
  exact e.mask_or_compl

def pageNumber (i j k l : ℕ) : ℕ := ((i * 512 + j) * 512 + k) * 512 + l

theorem pageAddress_eq {i j k l : ℕ} (hj : j < 512) (hk : k < 512) (hl : l < 512) :
    pageAddress i j k l = pageNumber i j k l * pageSize := by
  unfold pageAddress pageNumber pageSize
  have h1 : i <<< 39 ||| j <<< 30 = (i * 512 + j) <<< 30 := by
    rw [← Nat.shiftLeft_add_eq_or_of_lt (by rw [Nat.shiftLeft_eq]; omega)]
    omega
  have h2 : (i * 512 + j) <<< 30 ||| k <<< 21 = ((i * 512 + j) * 512 + k) <<< 21 := by
    rw [← Nat.shiftLeft_add_eq_or_of_lt (by rw [Nat.shiftLeft_eq]; omega)]
    omega
  have h3 : ((i * 512 + j) * 512 + k) <<< 21 ||| l <<< 12 =
      (((i * 512 + j) * 512 + k) * 512 + l) <<< 12 := by
    rw [← Nat.shiftLeft_add_eq_or_of_lt (by rw [Nat.shiftLeft_eq]; omega)]
    omega
  rw [h1, h2, h3, Nat.shiftLeft_eq]

theorem pagePath_pageNumber {i j k l : ℕ} (hi : i < 512) (hj : j < 512) (hk : k < 512)
    (hl : l < 512) : pagePath (pageNumber i j k l) = [i, j, k] ∧ pageNumber i j k l % 512 = l := by
  unfold pagePath pageNumber
  simp only [cons.injEq, and_true]
  omega

theorem pageNumber_512 (i j k : ℕ) :
    pageNumber i j (k + 1) 0 = pageNumber i j k 512 ∧
      pageNumber i (j + 1) 0 0 = pageNumber i j 512 0 ∧
      pageNumber (i + 1) 0 0 0 = pageNumber i 512 0 0 := by
  unfold pageNumber
  omega

/-- The pages from `page i` to `page (i + 1)` are below the entry `i` of the table at `π`. -/
structure Rows (n : ℕ) (π : List ℕ) (page : ℕ → ℕ) : Prop where
  length : π.length < 3
  idx : ∀ i < n, UserIdx π i
  le : ∀ i, page i ≤ page (i + 1)
  below : ∀ i < n, ∀ v, page i ≤ v → v < page (i + 1) → ∃ rest, pagePath v = π ++ i :: rest

theorem rows_pml4 : Rows 256 [] fun i => pageNumber i 0 0 0 := by
  refine ⟨by simp, fun i hi => hi, fun i => ?_, fun i hi v h1 h2 =>
    ⟨[v / 2 ^ 18 % 512, v / 2 ^ 9 % 512], ?_⟩⟩
  · simp only [pageNumber]
    omega
  · simp only [pageNumber, pagePath, nil_append, cons.injEq, and_true] at *
    omega

theorem rows_pdpt {i : ℕ} (hi : i < 256) : Rows 512 [i] fun j => pageNumber i j 0 0 := by
  refine ⟨by simp, fun j hj => hj, fun j => ?_, fun j hj v h1 h2 => ⟨[v / 2 ^ 9 % 512], ?_⟩⟩
  · simp only [pageNumber]
    omega
  · simp only [pageNumber, pagePath, cons_append, nil_append, cons.injEq, and_true] at *
    omega

theorem rows_pd {i j : ℕ} (hi : i < 256) (hj : j < 512) :
    Rows 512 [i, j] fun k => pageNumber i j k 0 := by
  refine ⟨by simp, fun k hk => hk, fun k => ?_, fun k hk v h1 h2 => ⟨[], ?_⟩⟩
  · simp only [pageNumber]
    omega
  · simp only [pageNumber, pagePath, cons_append, nil_append, cons.injEq, and_true] at *
    omega

/-- `mmu_clone_map` before the page `N`: the child has the parent's entries below `N`, unless the
pages ran out, and every page cost at most three tables. -/
structure Cloning (live pages : Set ℕ) (parent child : ℕ) (A₀ : Mappings) (free₀ : ℕ → List ℕ)
    (N : ℕ) (s : Mmu) (place : Places) (free : ℕ → List ℕ) (alloc : Set Block) : Prop where
  inv : s.Inv live place free alloc pages
  cow : CowSafe (s.mappings live)
  others : ∀ k : ℕ × ℕ, k.1 ≠ parent → k.1 ≠ child → s.mappings live k = A₀ k
  parent_frame : ∀ v, (s.mappings live (parent, v)).map PtEntry.frame =
    (A₀ (parent, v)).map PtEntry.frame
  child_eq : ∀ v e, s.mappings live (child, v) = some e →
    v < N ∧ s.mappings live (parent, v) = some e
  complete : (∀ v < N, ∀ e, s.mappings live (parent, v) = some e →
    s.mappings live (child, v) = some e) ∨ freePages free = ∅
  room : (freePages free₀).ncard ≤
    (freePages free).ncard + 3 * {v | v < N ∧ A₀ (parent, v) ≠ none}.ncard

variable {parent child N : ℕ} {A₀ : Mappings} {free₀ : ℕ → List ℕ}

section
variable (h : Cloning live pages parent child A₀ free₀ N s place free alloc)
include h

theorem Cloning.unmapped_iff
    (v : ℕ) : A₀ (parent, v) = none ↔ s.mappings live (parent, v) = none := by
  have := h.parent_frame v
  rw [← map_eq_none_iff (f := PtEntry.frame), ← this, map_eq_none_iff]

theorem Cloning.keeps {k : ℕ × ℕ} (hchild : ∀ v, A₀ (child, v) = none) (hk : A₀ k = some e) :
    ∃ e', s.mappings live k = some e' ∧ e'.frame = e.frame := by
  obtain ⟨m, v⟩ := k
  by_cases hmp : m = parent
  · subst hmp
    have hpf := h.parent_frame v
    rw [hk] at hpf
    exact map_eq_some_iff.mp hpf
  · have hmc : m ≠ child := by
      rintro rfl
      simp [hchild v] at hk
    exact ⟨e, by rw [h.others (m, v) hmp hmc, hk], rfl⟩

theorem Cloning.skip {N' : ℕ}
    (hle : N ≤ N') (hnone : ∀ v, N ≤ v → v < N' → s.mappings live (parent, v) = none) :
    Cloning live pages parent child A₀ free₀ N' s place free alloc := by
  refine { h with child_eq := ?_, complete := ?_, room := ?_ }
  · intro v e hv
    have := h.child_eq v e hv
    exact ⟨by omega, this.2⟩
  · refine h.complete.imp_left fun hc v hv e he => ?_
    by_cases hN : v < N
    · exact hc v hN e he
    · simp [hnone v (by omega) hv] at he
  · have hset : {v | v < N' ∧ A₀ (parent, v) ≠ none} = {v | v < N ∧ A₀ (parent, v) ≠ none} := by
      ext v
      constructor
      · rintro ⟨hv, hne⟩
        refine ⟨?_, hne⟩
        by_contra hN
        exact hne ((h.unmapped_iff v).mpr (hnone v (by omega) hv))
      · rintro ⟨hv, hne⟩
        exact ⟨by omega, hne⟩
    rw [hset]
    exact h.room

end

theorem Placed.present_of_place {t q m i : ℕ} {π rest : List ℕ} (h : s.Placed place)
    (ht : place t = some (m, π)) (hq : place q = some (m, π ++ i :: rest)) :
    (s.entry t i).has ptePresent := by
  induction rest using reverseRecOn generalizing q with
  | nil =>
    obtain ⟨-, t', ht', hp, -⟩ := h.above q m π i hq
    rw [h.inj ht ht']
    exact hp
  | append_singleton rest x ih =>
    rw [← cons_append, ← append_assoc] at hq
    obtain ⟨-, t', ht', -⟩ := h.above q m _ x hq
    exact ih ht'

section
variable (h : s.Inv live place free alloc pages)
include h

theorem Cloning.mark {pt v : ℕ}
    (hcow : CowSafe (s.mappings live)) (ht : place pt = some (parent, pagePath v))
    (hv : v < userPages) (he : s.entry pt (v % 512) = e) (hp : e.has ptePresent) :
    let s1 := if e.has pteWritable && !e.has pteShared then
      s.setEntry pt (v % 512) (clonedPte e) else s
    s1.Inv live place free alloc pages ∧ s1.kernelMap = s.kernelMap ∧
      s1.mappings live = update (s.mappings live) (parent, v) (some (clonedPte e)) ∧
      CowSafe (s1.mappings live) := by
  have hk : s.mappings live (parent, v) = some e :=
    (h.placed.mappings_iff h.live_iff).mpr ⟨hv, pt, ht, he, hp⟩
  obtain ⟨hframe, hpres, hshared, hwrite⟩ := clonedPte_spec e
  have hcow1 : CowSafe (update (s.mappings live) (parent, v) (some (clonedPte e))) := by
    apply hcow.update
    intro k' g hk' hg hf
    rw [hframe] at hf
    obtain ⟨hs, hw⟩ := hcow k' _ g e hk' hg hk hf
    rw [hshared]
    exact ⟨hs, fun h0 => ⟨hw (hs ▸ h0), hwrite h0⟩⟩
  have hmap : (if e.has pteWritable && !e.has pteShared then
      s.setEntry pt (v % 512) (clonedPte e) else s).mappings live =
      update (s.mappings live) (parent, v) (some (clonedPte e)) := by
    split_ifs with hif
    · rw [h.placed.mappings_setLeaf h.live_iff ht hv, if_pos (hpres.trans hp)]
    · rw [Bool.not_eq_true] at hif
      rw [clonedPte_eq_self hif, ← hk, update_eq_self]
  simp only
  rw [hmap]
  refine ⟨⟨?_, h.live_iff, ?_, ?_⟩, ?_, rfl, hcow1⟩
  · split_ifs
    · exact h.placed.setLeaf ht _ _
    · exact h.placed
  · split_ifs
    · exact h.kernel
    · exact h.kernel
  · rw [hmap]
    have hheld := h.held.retag hk hframe
    split_ifs
    · exact hheld
    · exact hheld
  · split_ifs <;> rfl

theorem Inv.unmapped {t m i v : ℕ} {π : List ℕ}
    (rest : List ℕ) (ht : place t = some (m, π)) (hnot : (s.entry t i).has ptePresent = false)
    (hv : pagePath v = π ++ i :: rest) : s.mappings live (m, v) = none := by
  by_contra hne
  obtain ⟨e, he⟩ := ne_none_iff_exists'.mp hne
  obtain ⟨-, q, hq, -⟩ := (h.placed.mappings_iff h.live_iff).mp he
  rw [hv] at hq
  have := h.placed.present_of_place ht hq
  simp [hnot] at this

theorem Inv.unmapped_leaf {t m v : ℕ}
    (ht : place t = some (m, pagePath v)) (hnot : (s.entry t (v % 512)).has ptePresent = false) :
    s.mappings live (m, v) = none := by
  by_contra hne
  obtain ⟨e, he⟩ := ne_none_iff_exists'.mp hne
  obtain ⟨-, q, hq, rfl, hpe⟩ := (h.placed.mappings_iff h.live_iff).mp he
  simp [← h.placed.inj ht hq, hnot] at hpe

end

theorem cowSafe_share {A : Mappings} {k : ℕ × ℕ} (h : CowSafe A) (hk : A k = some (clonedPte e))
    (k' : ℕ × ℕ) : CowSafe (update A k' (some (clonedPte e))) := by
  obtain ⟨-, -, hshared, hwrite⟩ := clonedPte_spec e
  apply h.update
  intro k₁ g _ hg hf
  by_cases hkk : k₁ = k
  · rw [hkk, hk] at hg
    cases hg
    rw [hshared]
    exact ⟨rfl, fun h0 => ⟨hwrite h0, hwrite h0⟩⟩
  · obtain ⟨hs, hw⟩ := h k₁ k g _ hkk hg hk hf
    exact ⟨hs, fun h0 => ⟨hw (hs ▸ h0), hwrite (hshared ▸ h0)⟩⟩

theorem ncard_mapped_succ {A : Mappings} (hA : A (parent, N) ≠ none) :
    {v | v < N + 1 ∧ A (parent, v) ≠ none}.ncard = {v | v < N ∧ A (parent, v) ≠ none}.ncard + 1 := by
  have hset : {v | v < N + 1 ∧ A (parent, v) ≠ none} =
      insert N {v | v < N ∧ A (parent, v) ≠ none} := by
    ext v
    by_cases hv : v = N
    · simp [hv, hA]
    · simp only [mem_insert_iff, hv, false_or]
      exact and_congr_left fun _ => by omega
  rw [hset, ncard_insert_of_notMem (fun hc => lt_irrefl N hc.1)
    ((finite_lt_nat N).subset fun v hv => hv.1)]

theorem Cloning.turn (h : Cloning live pages parent child A₀ free₀ N s place free alloc) (pt va : ℕ)
    (hne : child ≠ parent)
    (hchild : child ∈ live) (ht : place pt = some (parent, pagePath N)) (hN : N < userPages)
    (he : s.entry pt (N % 512) = e) (hp : e.has ptePresent) (hva : va / pageSize = N) :
    ∃ s' ok place' free' alloc', (if e.has pteWritable && !e.has pteShared then
        s.setEntry pt (N % 512) (clonedPte e) else s).vmmMap child va e.addr (cloneFlags e) =
          some (s', ok) ∧ Cloning live pages parent child A₀ free₀ (N + 1) s' place' free' alloc' ∧
      ∀ p x, place p = some x → place' p = some x := by
  have hk : s.mappings live (parent, N) = some e :=
    (h.inv.placed.mappings_iff h.inv.live_iff).mpr ⟨hN, pt, ht, he, hp⟩
  obtain ⟨hi1, hkm1, hmap1, hcow1⟩ := Cloning.mark h.inv h.cow ht hN he hp
  generalize hs1 : (if e.has pteWritable && !e.has pteShared then
    s.setEntry pt (N % 512) (clonedPte e) else s) = s1 at hi1 hkm1 hmap1 hcow1 ⊢
  have hframe := (clonedPte_spec e).1
  obtain ⟨hflags, hfpres, -, -⟩ := cloneFlags_spec e
  have hkc : ((child, N) : ℕ × ℕ) ≠ (parent, N) := fun hc => hne (congrArg fst hc)
  have hnone : s.mappings live (child, N) = none := by
    by_contra hc
    obtain ⟨g, hg⟩ := ne_none_iff_exists'.mp hc
    exact absurd (h.child_eq N g hg).1 (lt_irrefl N)
  have hnone1 : s1.mappings live (child, va / pageSize) = none := by
    rw [hva, hmap1, update_of_ne hkc, hnone]
  have hk1 : s1.mappings live (parent, N) = some (clonedPte e) := by
    rw [hmap1, update_self]
  have hcount := hi1.held.refCount _ _ hk1
  have halloc := hi1.held.named_alloc _ _ hk1
  rw [hframe] at hcount halloc
  have hkeep : e.frame ∉ tables s1.kernelMap place := by
    intro hc
    exact hi1.held.keep_ne _ hc _ _ hk1 hframe
  obtain ⟨s', ok, place', free', alloc', hrun, hi', hx, hmap', hempty⟩ :=
    vmmMap_spec hi1 hchild (by rw [hva]; exact hN) hnone1 halloc hkeep hcount hflags
      (hfpres.trans hp)
  rw [show e.frame * pageSize = e.addr from e.addr_eq.symm] at hrun
  rw [hva, PtEntry.ofPage_frame] at hmap'
  change _ = (if ok then update (s1.mappings live) (child, N) (some (clonedPte e))
    else s1.mappings live) at hmap'
  refine ⟨s', ok, place', free', alloc', hrun, ?_, fun p x hpx => hx.place_some hi1 hpx⟩
  have hother (k : ℕ × ℕ) (h1 : k ≠ (parent, N)) (h2 : k ≠ (child, N)) :
      s'.mappings live k = s.mappings live k := by
    rw [hmap']
    split_ifs
    · rw [update_of_ne h2, hmap1, update_of_ne h1]
    · rw [hmap1, update_of_ne h1]
  have hparent (v : ℕ) : s'.mappings live (parent, v) =
      if v = N then some (clonedPte e) else s.mappings live (parent, v) := by
    split_ifs with hv
    · rw [hmap', hv]
      split_ifs
      · rw [update_of_ne hkc.symm, hk1]
      · exact hk1
    · exact hother _ (fun hc => hv (congrArg snd hc)) fun hc => hne (congrArg fst hc).symm
  have hchild' (v : ℕ) : s'.mappings live (child, v) =
      if v = N then (if ok then some (clonedPte e) else none) else s.mappings live (child, v) := by
    split_ifs with hv hok
    · rw [hmap', hv, if_pos hok, update_self]
    · rw [hmap', hv, if_neg hok, hmap1, update_of_ne hkc, hnone]
    · exact hother _ (fun hc => hne (congrArg fst hc)) fun hc => hv (congrArg snd hc)
  constructor
  · exact hi'
  · rw [hmap']
    split_ifs
    · exact cowSafe_share hcow1 hk1 _
    · exact hcow1
  · intro k h1 h2
    rw [hother k (fun hc => h1 (congrArg fst hc)) (fun hc => h2 (congrArg fst hc))]
    exact h.others k h1 h2
  · intro v
    rw [hparent, ← h.parent_frame]
    split_ifs with hv
    · rw [hv, hk, map_some, map_some, hframe]
    · rfl
  · intro v g hg
    rw [hchild'] at hg
    rw [hparent]
    split_ifs at hg ⊢ with hv hok
    · exact ⟨by omega, hg⟩
    · have hold := h.child_eq v g hg
      exact ⟨by omega, hold.2⟩
  · cases ok with
    | false => exact .inr (hempty rfl)
    | true =>
      refine h.complete.imp (fun hc v hv g hg => ?_) fun hc => subset_eq_empty hx.free_sub hc
      simp only [if_true] at hchild'
      rw [hparent] at hg
      rw [hchild']
      split_ifs at hg ⊢ with hvN
      · exact hg
      · exact hc v (by omega) g hg
  · have hA : A₀ (parent, N) ≠ none := by
      rw [Ne, h.unmapped_iff, hk]
      exact some_ne_none e
    rw [ncard_mapped_succ hA]
    have := h.room
    have := hx.room
    omega

/-- The loops of `mmu_clone_map`, with the tables `place₀` still in place. -/
def CloneLoop (live pages : Set ℕ) (parent child : ℕ) (A₀ : Mappings) (free₀ : ℕ → List ℕ)
    (place₀ : Places) (N : ℕ) (s : Mmu) : Prop :=
  ∃ place free alloc, Cloning live pages parent child A₀ free₀ N s place free alloc ∧
    ∀ p x, place₀ p = some x → place p = some x

variable {place₀ : Places} {i j k pt pd pdpt : ℕ}

theorem CloneLoop.mono {place1 : Places} (h : CloneLoop live pages parent child A₀ free₀ place1 N s)
    (hle : ∀ p x, place₀ p = some x → place1 p = some x) :
    CloneLoop live pages parent child A₀ free₀ place₀ N s := by
  obtain ⟨place, free, alloc, hc, hp⟩ := h
  exact ⟨place, free, alloc, hc, fun p x hx => hp p x (hle p x hx)⟩

theorem cloneTable_spec {n t : ℕ} {π : List ℕ} (page : ℕ → ℕ) {body : ℕ → Mmu → Option (Mmu × Bool)}
    (hrows : Rows n π page) (ht : place₀ t = some (parent, π))
    (hskip : ∀ i s, (s.entry t i).has ptePresent = false → body i s = some (s, false))
    (hbody : ∀ i < n, ∀ place1 s, (s.entry t i).has ptePresent → (s.entry t i).has pteHuge = false →
      place1 (s.entry t i).frame = some (parent, π ++ [i]) →
      CloneLoop live pages parent child A₀ free₀ place1 (page i) s →
      ∃ s', body i s = some (s', false) ∧
        CloneLoop live pages parent child A₀ free₀ place1 (page (i + 1)) s')
    (h : CloneLoop live pages parent child A₀ free₀ place₀ (page 0) s) :
    ∃ s', forUntil body n s = some (s', false) ∧
      CloneLoop live pages parent child A₀ free₀ place₀ (page n) s' := by
  refine forUntil_invariant (fun i s => CloneLoop live pages parent child A₀ free₀ place₀ (page i) s)
    h ?_
  rintro i hi s ⟨place, free, alloc, hc, hp⟩
  have ht' := hp t _ ht
  cases hpres : (s.entry t i).has ptePresent with
  | true =>
    obtain ⟨hhuge, hbelow⟩ := hc.inv.placed.below t parent π i ht' hrows.length (hrows.idx i hi) hpres
    obtain ⟨s', hrun, hl⟩ := hbody i hi place s hpres hhuge hbelow
      ⟨place, free, alloc, hc, fun _ _ h => h⟩
    exact ⟨s', hrun, hl.mono hp⟩
  | false =>
    refine ⟨s, hskip i s hpres, place, free, alloc, hc.skip (hrows.le i) ?_, hp⟩
    intro v h1 h2
    obtain ⟨rest, hv⟩ := hrows.below i hi v h1 h2
    exact hc.inv.unmapped rest ht' hpres hv

section
variable (hne : child ≠ parent) (hchild : child ∈ live)
include hne hchild

theorem clonePt_spec (h : CloneLoop live pages parent child A₀ free₀ place₀ (pageNumber i j k 0) s)
    (hpt : place₀ pt = some (parent, [i, j, k])) (hi : i < 256) (hj : j < 512) (hk : k < 512) :
    ∃ s', s.clonePt child i j k pt = some (s', false) ∧
      CloneLoop live pages parent child A₀ free₀ place₀ (pageNumber i j (k + 1) 0) s' := by
  rw [(pageNumber_512 i j k).1]
  refine forUntil_invariant
    (fun l s => CloneLoop live pages parent child A₀ free₀ place₀ (pageNumber i j k l) s) h ?_
  rintro l hl s ⟨place, free, alloc, hc, hp⟩
  have hpt' := hp pt _ hpt
  have hsucc : pageNumber i j k (l + 1) = pageNumber i j k l + 1 := by
    unfold pageNumber
    omega
  obtain ⟨hpath, hmod⟩ := pagePath_pageNumber (show i < 512 by omega) hj hk hl
  have hN : pageNumber i j k l < userPages := by
    unfold pageNumber userPages
    omega
  rw [hsucc]
  by_cases hpres : (s.entry pt l).has ptePresent
  · obtain ⟨s', ok, place', free', alloc', hrun, hc', hp'⟩ := hc.turn pt
      (pageAddress i j k l) hne hchild (by rw [hpath]; exact hpt') hN rfl
      (by rw [hmod]; exact hpres)
      (by rw [pageAddress_eq hj hk hl]; exact Nat.mul_div_cancel _ (by decide))
    refine ⟨s', ?_, place', free', alloc', hc', fun p x hx => hp' p x (hp p x hx)⟩
    rw [hmod] at hrun
    simp only [hpres]
    change ((if _ then s.setEntry pt l (clonedPte (s.entry pt l)) else s).vmmMap child
      (pageAddress i j k l) (s.entry pt l).addr (cloneFlags (s.entry pt l))).bind _ = _
    rw [hrun]
    rfl
  · rw [Bool.not_eq_true] at hpres
    refine ⟨s, by simp [hpres], place, free, alloc, hc.skip (by omega) ?_, hp⟩
    intro v h1 h2
    obtain rfl : v = pageNumber i j k l := by omega
    exact hc.inv.unmapped_leaf (hpath ▸ hpt') (hmod.symm ▸ hpres)

theorem clonePd_spec (h : CloneLoop live pages parent child A₀ free₀ place₀ (pageNumber i j 0 0) s)
    (hpd : place₀ pd = some (parent, [i, j])) (hi : i < 256) (hj : j < 512) :
    ∃ s', s.clonePd child i j pd = some (s', false) ∧
      CloneLoop live pages parent child A₀ free₀ place₀ (pageNumber i (j + 1) 0 0) s' := by
  rw [(pageNumber_512 i j 0).2.1]
  refine cloneTable_spec (fun k => pageNumber i j k 0) (rows_pd hi hj) hpd (fun k s hp => by simp [hp]) ?_ h
  intro k hk place1 s hp hhuge hpt hs
  simp only [hp, hhuge]
  exact clonePt_spec hne hchild hs hpt hi hj hk

theorem clonePdpt_spec
    (h : CloneLoop live pages parent child A₀ free₀ place₀ (pageNumber i 0 0 0) s)
    (hpdpt : place₀ pdpt = some (parent, [i])) (hi : i < 256) :
    ∃ s', s.clonePdpt child i pdpt = some (s', false) ∧
      CloneLoop live pages parent child A₀ free₀ place₀ (pageNumber (i + 1) 0 0 0) s' := by
  rw [(pageNumber_512 i 0 0).2.2]
  refine cloneTable_spec (fun j => pageNumber i j 0 0) (rows_pdpt hi) hpdpt (fun j s hp => by simp [hp]) ?_ h
  intro j hj place1 s hp _ hpd hs
  simp only [hp]
  exact clonePd_spec hne hchild hs hpd hi hj

end

theorem mappings_of_notMem {m : ℕ} (s : Mmu) (hm : m ∉ live) (v : ℕ) :
    s.mappings live (m, v) = none := by
  unfold mappings
  rw [if_neg fun hc => hm hc.1]

/-- The new map has the frames of the old one, unless the pages ran out; it takes a page, and at
most three for each page. -/
theorem mmuCloneMap_spec (h : s.Inv live place free alloc pages) (hcow : CowSafe (s.mappings live))
    (hm : parent ∈ live) :
    (∃ s' child place' free1 free' alloc', s.mmuCloneMap parent = some (s', some child) ∧
      child ∉ live ∧ (freePages free).ncard ≤ (freePages free1).ncard + 1 ∧
      Cloning (insert child live) pages parent child (s.mappings live) free1 userPages s' place'
        free' alloc') ∨
    (∃ s', s.mmuCloneMap parent = some (s', none) ∧ s'.Inv live place free alloc pages ∧
      s'.mappings live = s.mappings live ∧ freePages free = ∅) := by
  unfold mmuCloneMap
  rcases vmmCreateUserMap_spec h with
    ⟨s1, child, free1, he, hi1, hpn, hx, hmap⟩ | ⟨s1, he, hi1, hmap, -, hempty⟩
  · left
    have hchild : child ∉ live := by
      rw [h.live_iff, hpn]
      simp
    have hne : child ≠ parent := by
      rintro rfl
      exact hchild hm
    have hstart : Cloning (insert child live) pages parent child (s.mappings live) free1
        (pageNumber 0 0 0 0) s1 (update place child (some (child, []))) free1
        (insert ⟨child, 0⟩ alloc) := by
      constructor
      · exact hi1
      · rw [hmap]
        exact hcow
      · intro k _ _
        rw [hmap]
      · intro v
        rw [hmap]
      · intro v e hv
        simp [hmap, mappings_of_notMem s hchild] at hv
      · left
        intro v hv
        exact absurd hv (by simp [pageNumber])
      · omega
    have hroot : update place child (some (child, [])) parent = some (parent, []) := by
      rw [update_of_ne hne.symm]
      exact (h.live_iff parent).mp hm
    have hloop : ∃ s', forUntil (fun i u =>
        let pml4e := u.entry parent i
        if !pml4e.has ptePresent then some (u, false) else u.clonePdpt child i pml4e.frame) 256 s1 =
          some (s', false) ∧
        CloneLoop (insert child live) pages parent child (s.mappings live) free1
          (update place child (some (child, []))) (pageNumber 256 0 0 0) s' := by
      refine cloneTable_spec (fun i => pageNumber i 0 0 0) rows_pml4 hroot (fun i u hp => by simp [hp]) ?_
        ⟨_, _, _, hstart, fun _ _ h => h⟩
      intro i hi place1 u hp _ hpdpt hu
      simp only [hp]
      exact clonePdpt_spec hne (mem_insert _ _) hu hpdpt hi
    obtain ⟨s', hrun, place', free', alloc', hc, -⟩ := hloop
    refine ⟨s', child, place', free1, free', alloc', ?_, hchild, hx.room, hc⟩
    rw [he]
    simp only [bind_eq_bind, bind_some]
    rw [hrun]
    rfl
  · right
    refine ⟨s1, ?_, hi1, hmap, hempty⟩
    rw [he]
    rfl

end Mmu
end Doppio
