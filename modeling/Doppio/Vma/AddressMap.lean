import Doppio.Vma.Area

/-! The areas of a process as a partial map from addresses to flags, vnode and file offset. `cut` is
what `vma_remove_range` makes of one area. -/
namespace Doppio
open List

namespace VmRange

section
variable (v : VmRange)

/-- What an area says about one address. -/
def lookup (a : ℕ) : Option (BitVec 32 × Option Vnode × BitVec 64) :=
  if v.start ≤ a ∧ a < v.end_ then
    some (v.flags, v.vn, v.fileOffset + BitVec.ofNat 64 (a - v.start))
  else none

/-- The parts before and from `addr` on, as `vma_split` makes them. -/
def headPart (addr : ℕ) : VmRange := { v with end_ := addr }

def tailPart (addr : ℕ) : VmRange :=
  { v with start := addr, fileOffset := v.fileOffset + BitVec.ofNat 64 (addr - v.start) }

@[simp] theorem headPart_start (addr : ℕ) : (v.headPart addr).start = v.start := rfl

@[simp] theorem headPart_end (addr : ℕ) : (v.headPart addr).end_ = addr := rfl

@[simp] theorem tailPart_start (addr : ℕ) : (v.tailPart addr).start = addr := rfl

@[simp] theorem tailPart_end (addr : ℕ) : (v.tailPart addr).end_ = v.end_ := rfl

end

variable {v : VmRange}

theorem lookup_eq_none {a : ℕ} : v.lookup a = none ↔ a < v.start ∨ v.end_ ≤ a := by
  unfold lookup
  split_ifs with h
  · simp only [false_iff]
    omega
  · simp only [true_iff]
    omega

theorem lookup_headPart {addr a : ℕ} (h : addr ≤ v.end_) :
    (v.headPart addr).lookup a = if a < addr then v.lookup a else none := by
  by_cases ha : a < addr
  · rw [if_pos ha]
    exact if_congr (and_congr_right fun _ => ⟨fun _ => ha.trans_le h, fun _ => ha⟩) rfl rfl
  · rw [if_neg ha]
    exact lookup_eq_none.mpr (.inr (not_lt.mp ha))

theorem lookup_tailPart {addr a : ℕ} (h : v.start ≤ addr) :
    (v.tailPart addr).lookup a = if addr ≤ a then v.lookup a else none := by
  by_cases ha : addr ≤ a
  · rw [if_pos ha]
    refine if_congr (and_congr_left fun _ => ⟨fun _ => h.trans ha, fun _ => ha⟩) ?_ rfl
    have hsum : addr - v.start + (a - addr) = a - v.start := by omega
    rw [tailPart, BitVec.add_assoc, ← BitVec.ofNat_add, hsum]
  · rw [if_neg ha]
    exact lookup_eq_none.mpr (.inl (not_le.mp ha))

end VmRange

def addressMap (rs : List VmRange) (a : ℕ) : Option (BitVec 32 × Option Vnode × BitVec 64) :=
  rs.findSome? fun v => v.lookup a

/-- Non-empty ranges of addresses, in order and apart. -/
structure Layout (rs : List VmRange) : Prop where
  disjoint : rs.Pairwise fun v w => v.end_ ≤ w.start
  nonempty : ∀ v ∈ rs, v.start < v.end_
  end_lt : ∀ v ∈ rs, v.end_ < 2 ^ 64

variable {rs : List VmRange}

theorem Layout.sublist {rs' : List VmRange} (h : Layout rs) (hs : rs'.Sublist rs) : Layout rs' :=
  ⟨h.disjoint.sublist hs, fun v hv => h.nonempty v (hs.subset hv),
    fun v hv => h.end_lt v (hs.subset hv)⟩

theorem layout_append_cons {us vs : List VmRange} {v : VmRange} :
    Layout (us ++ v :: vs) ↔ Layout (us ++ vs) ∧ v.start < v.end_ ∧ v.end_ < 2 ^ 64 ∧
      (∀ u ∈ us, u.end_ ≤ v.start) ∧ ∀ w ∈ vs, v.end_ ≤ w.start := by
  constructor
  · intro h
    obtain ⟨hu, hvs, huv⟩ := pairwise_append.mp h.disjoint
    exact ⟨h.sublist (Sublist.append_left (sublist_cons_self _ _) _),
      h.nonempty v (by simp), h.end_lt v (by simp), fun u hu => huv u hu v (by simp),
      (pairwise_cons.mp hvs).1⟩
  · rintro ⟨h, hne, hlt, hus, hvs⟩
    obtain ⟨hu, hv, huv⟩ := pairwise_append.mp h.disjoint
    refine ⟨pairwise_append.mpr ⟨hu, pairwise_cons.mpr ⟨hvs, hv⟩, ?_⟩, ?_, ?_⟩
    · intro u hu w hw
      rcases mem_cons.mp hw with rfl | hw
      · exact hus u hu
      · exact huv u hu w hw
    all_goals
      intro w hw
      simp only [mem_append, mem_cons] at hw
      rcases hw with hw | rfl | hw
    · exact h.nonempty w (by simp [hw])
    · exact hne
    · exact h.nonempty w (by simp [hw])
    · exact h.end_lt w (by simp [hw])
    · exact hlt
    · exact h.end_lt w (by simp [hw])

theorem Layout.split {us vs : List VmRange} {v : VmRange} {addr : ℕ}
    (h : Layout (us ++ v :: vs)) (h1 : v.start < addr) (h2 : addr < v.end_) :
    Layout (us ++ v.headPart addr :: v.tailPart addr :: vs) := by
  obtain ⟨h, -, hlt, hus, hvs⟩ := layout_append_cons.mp h
  refine layout_append_cons.mpr ⟨layout_append_cons.mpr ⟨h, h2, hlt, ?_, hvs⟩, h1, ?_, hus, ?_⟩
  · exact fun u hu => (hus u hu).trans h1.le
  · exact h2.trans hlt
  · intro w hw
    rcases mem_cons.mp hw with rfl | hw
    · exact le_rfl
    · exact h2.le.trans (hvs w hw)

/-- The removed range is strictly inside. -/
def Punched (start end_ : ℕ) (v : VmRange) : Prop := v.start < start ∧ end_ < v.end_

instance (start end_ : ℕ) (v : VmRange) : Decidable (Punched start end_ v) :=
  inferInstanceAs (Decidable (_ ∧ _))

/-- What `vma_remove_range` leaves of a range: only the front around the removed one. -/
def cut (start end_ : ℕ) (v : VmRange) : List VmRange :=
  if v.end_ ≤ start ∨ end_ ≤ v.start then [v]
  else if v.start < start then [v.headPart start]
  else if end_ < v.end_ then [v.tailPart end_]
  else []

theorem cut_outside {start end_ : ℕ} {v : VmRange} (h : v.end_ ≤ start ∨ end_ ≤ v.start) :
    cut start end_ v = [v] := if_pos h

theorem cut_headPart (start end_ : ℕ) (v : VmRange) :
    cut start end_ (v.headPart start) = [v.headPart start] := cut_outside (.inl le_rfl)

theorem cut_tailPart (start end_ : ℕ) (v : VmRange) :
    cut start end_ (v.tailPart end_) = [v.tailPart end_] := cut_outside (.inr le_rfl)

theorem flatMap_cut_outside {start end_ : ℕ}
    (h : ∀ v ∈ rs, v.end_ ≤ start ∨ end_ ≤ v.start) : rs.flatMap (cut start end_) = rs := by
  induction rs with
  | nil => rfl
  | cons v rs ih =>
    rw [flatMap_cons, cut_outside (h v (by simp)), ih fun w hw => h w (by simp [hw])]
    rfl

theorem findSome_cut {start end_ a : ℕ} (hse : start < end_) (v : VmRange) :
    (cut start end_ v).findSome? (fun w => w.lookup a) =
      if start ≤ a ∧ (a < end_ ∨ Punched start end_ v) then none else v.lookup a := by
  have hnone := @VmRange.lookup_eq_none v a
  unfold cut Punched
  split_ifs with h1 h2 h3 h4 h5 h6 h7
  · simp only [findSome?_singleton, hnone]
    omega
  · simp
  · rw [findSome?_singleton, VmRange.lookup_headPart (by omega), if_neg (by omega)]
  · rw [findSome?_singleton, VmRange.lookup_headPart (by omega)]
    split_ifs
    · rfl
    · exact (hnone.mpr (by omega)).symm
  · rw [findSome?_singleton, VmRange.lookup_tailPart (by omega), if_neg (by omega)]
  · rw [findSome?_singleton, VmRange.lookup_tailPart (by omega)]
    split_ifs
    · rfl
    · exact (hnone.mpr (by omega)).symm
  · rfl
  · exact (hnone.mpr (by omega)).symm

theorem addressMap_flatMap (f : VmRange → List VmRange) (rs : List VmRange) (a : ℕ) :
    addressMap (rs.flatMap f) a = rs.findSome? fun v => (f v).findSome? fun w => w.lookup a := by
  induction rs with
  | nil => rfl
  | cons v rs ih =>
    unfold addressMap at ih ⊢
    rw [flatMap_cons, findSome?_append, ih, findSome?_cons]
    cases (f v).findSome? fun w => w.lookup a <;> rfl

/-- The old map outside the removed range, unless a range has a hole punched into it. -/
theorem addressMap_cut_iff (hl : Layout rs) {start end_ : ℕ} (hse : start < end_) :
    (∀ a, addressMap (rs.flatMap (cut start end_)) a =
        if start ≤ a ∧ a < end_ then none else addressMap rs a) ↔
      ∀ v ∈ rs, ¬ Punched start end_ v := by
  simp only [addressMap_flatMap, findSome_cut hse]
  constructor
  · intro h v hv hp
    -- at the first address behind the hole the old map is defined and the new one is not
    have h := h end_
    rw [if_neg (by omega)] at h
    have hold : addressMap rs end_ ≠ none := by
      intro hn
      have := VmRange.lookup_eq_none.mp (findSome?_eq_none_iff.mp hn v hv)
      have := hp.1
      have := hp.2
      omega
    refine hold (h ▸ findSome?_eq_none_iff.mpr fun w hw => ?_)
    split_ifs with hc
    · rfl
    · rw [VmRange.lookup_eq_none]
      obtain ⟨us, vs, rfl⟩ := append_of_mem hv
      obtain ⟨-, -, -, hus, hvs⟩ := layout_append_cons.mp hl
      simp only [mem_append, mem_cons] at hw
      have := hp.1
      have := hp.2
      rcases hw with hw | rfl | hw
      · have := hus w hw
        omega
      · exact absurd ⟨hse.le, .inr hp⟩ hc
      · have := hvs w hw
        omega
  · intro h a
    split_ifs with ha
    · exact findSome?_eq_none_iff.mpr fun v _ => if_pos ⟨ha.1, .inl ha.2⟩
    · unfold addressMap
      induction rs with
      | nil => rfl
      | cons v rs ih =>
        have hv : ¬ (start ≤ a ∧ (a < end_ ∨ Punched start end_ v)) := by
          rintro ⟨h1, h2 | h2⟩
          · exact ha ⟨h1, h2⟩
          · exact h v (by simp) h2
        rw [findSome?_cons, findSome?_cons, if_neg hv,
          ih (hl.sublist (sublist_cons_self _ _)) fun w hw => h w (by simp [hw])]

end Doppio
