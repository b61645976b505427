import Doppio.Mmu.Tables

/-! What the operations on page tables need and keep whatever frames the last level names: the
tables form a forest, and their pages are allocated. -/
namespace Doppio
open Buddy List Function
namespace Pmm

structure Recounted (s s' : Pmm) : Prop where
  page : ∀ x, s'.page x = { s.page x with refCount := (s'.page x).refCount }
  freeLists : s'.freeLists = s.freeLists
  totalPages : s'.totalPages = s.totalPages

theorem Recounted.refl (s : Pmm) : Recounted s s := ⟨fun _ => rfl, rfl, rfl⟩

theorem Recounted.trans {s1 s2 s3 : Pmm} (h : Recounted s1 s2) (h' : Recounted s2 s3) :
    Recounted s1 s3 := by
  refine ⟨fun x => ?_, h'.freeLists.trans h.freeLists, h'.totalPages.trans h.totalPages⟩
  rw [h'.page x, h.page x]

theorem Recounted.modify (s : Pmm) (p : ℕ) (f : BitVec 32 → BitVec 32) :
    Recounted s (s.modify p fun q => { q with refCount := f q.refCount }) := by
  refine ⟨fun x => ?_, rfl, rfl⟩
  rw [modify_page]
  split_ifs with hx
  · rw [hx]
  · rfl

variable {s s' : Pmm} {free : ℕ → List ℕ} {alloc : Set Block} {p : ℕ}

theorem Wf.recounted (h : s.Wf free alloc) (hr : Recounted s s') : s'.Wf free alloc := by
  have hnext (x : ℕ) : (s'.page x).next = (s.page x).next := by rw [hr.page x]
  have hprev (x : ℕ) : (s'.page x).prev = (s.page x).prev := by rw [hr.page x]
  have hfree (x : ℕ) : (s'.page x).isFree = (s.page x).isFree := by rw [hr.page x]
  have horder (x : ℕ) : (s'.page x).order = (s.page x).order := by rw [hr.page x]
  refine ⟨⟨?_, h.shape.nodup, ?_, ?_, h.shape.not_free, ?_⟩, ?_, ?_⟩
  · intro o ho
    rw [hr.freeLists]
    exact (h.shape.linked o ho).congr fun x _ => ⟨hnext x, hprev x⟩
  · intro o ho x hx
    rw [hfree, horder]
    exact h.shape.flagged o ho x hx
  · rw [hr.totalPages]
    exact h.shape.apart
  · rw [hr.totalPages]
    exact h.shape.total_le
  · intro b hb
    rw [hfree]
    exact h.alloc_flag b hb
  · intro x hx
    rw [hfree] at hx
    exact h.free_flag x hx

theorem Wf.lt_total (h : s.Wf free alloc) (hp : ⟨p, 0⟩ ∈ alloc) : p < s.totalPages := by
  have := h.shape.apart.fits ⟨p, 0⟩ (.inr hp)
  simp only [pow_zero] at this
  omega

theorem physToPage_of_lt (hp : p < s.totalPages) : s.physToPage (p * pageSize) = some p := by
  unfold physToPage pageSize
  rw [Nat.mul_div_cancel p (by decide), if_neg (by omega)]

theorem Wf.physToPage (h : s.Wf free alloc) (hp : ⟨p, 0⟩ ∈ alloc) :
    s.physToPage (p * pageSize) = some p := physToPage_of_lt (h.lt_total hp)

/-- The allocator has given out at most `n` of the free pages. -/
structure Took (n : ℕ) (free : ℕ → List ℕ) (alloc : Set Block) (free' : ℕ → List ℕ)
    (alloc' : Set Block) : Prop where
  cover_eq : cover (blocks free' alloc') = cover (blocks free alloc)
  free_sub : freePages free' ⊆ freePages free
  room : (freePages free).ncard ≤ (freePages free').ncard + n

theorem Took.refl (n : ℕ) (free : ℕ → List ℕ) (alloc : Set Block) : Took n free alloc free alloc :=
  ⟨rfl, subset_rfl, Nat.le_add_right _ _⟩

theorem Took.trans {free' free'' : ℕ → List ℕ} {alloc' alloc'' : Set Block} {k n : ℕ}
    (h : Took 1 free alloc free' alloc') (h' : Took n free' alloc' free'' alloc'')
    (hk : n + 1 ≤ k) : Took k free alloc free'' alloc'' := by
  have := h.room
  have := h'.room
  exact ⟨h'.cover_eq.trans h.cover_eq, h'.free_sub.trans h.free_sub, by omega⟩

end Pmm

namespace Mmu
open Pmm

section
variable (s : Mmu)

@[simp] theorem setEntry_entry (t i : ℕ) (e : PtEntry) (p j : ℕ) :
    (s.setEntry t i e).entry p j = if p = t ∧ j = i then e else s.entry p j := by
  unfold setEntry
  by_cases hp : p = t
  · subst hp
    by_cases hj : j = i <;> simp [hj]
  · simp [hp]

@[simp] theorem setEntry_pmm (t i : ℕ) (e : PtEntry) : (s.setEntry t i e).pmm = s.pmm :=
  rfl

@[simp] theorem modifyPage_entry (p : ℕ) (f : Page → Page) :
    (s.modifyPage p f).entry = s.entry := rfl

@[simp] theorem modifyPage_pmm (p : ℕ) (f : Page → Page) :
    (s.modifyPage p f).pmm = s.pmm.modify p f := rfl

@[simp] theorem zeroPage_entry (p q j : ℕ) :
    (s.zeroPage p).entry q j = if q = p then 0 else s.entry q j := by
  unfold zeroPage
  by_cases hq : q = p <;> simp [hq]

@[simp] theorem zeroPage_pmm (p : ℕ) : (s.zeroPage p).pmm = s.pmm := rfl

@[simp] theorem zeroPage_kernelMap (p : ℕ) : (s.zeroPage p).kernelMap = s.kernelMap := rfl

theorem tableEntry_spec {p : ℕ} (hp : p < 2 ^ 40) :
    let e := PtEntry.ofPage p ||| ptePresent ||| pteWritable ||| pteUser
    e.has ptePresent ∧ e.has pteHuge = false ∧ e.frame = p := by
  refine ⟨?_, ?_, ?_⟩
  · rw [PtEntry.has_or, PtEntry.has_or, PtEntry.has_or,
      show ptePresent.has ptePresent = true by decide]
    simp
  · rw [PtEntry.has_or, PtEntry.has_or, PtEntry.has_or, PtEntry.ofPage_has hp (by decide)]
    decide
  · rw [PtEntry.frame_or _ (by decide), PtEntry.frame_or _ (by decide),
      PtEntry.frame_or _ (by decide), PtEntry.frame_ofPage hp]

structure Recounted (s s' : Mmu) : Prop where
  pmm : s.pmm.Recounted s'.pmm
  entry : s'.entry = s.entry
  kernelMap : s'.kernelMap = s.kernelMap

theorem Recounted.refl (s : Mmu) : Recounted s s := ⟨.refl _, rfl, rfl⟩

theorem Recounted.trans {s1 s2 s3 : Mmu} (h : Recounted s1 s2) (h' : Recounted s2 s3) :
    Recounted s1 s3 :=
  ⟨h.pmm.trans h'.pmm, h'.entry.trans h.entry, h'.kernelMap.trans h.kernelMap⟩

theorem Recounted.modifyPage (s : Mmu) (p : ℕ) (f : BitVec 32 → BitVec 32) :
    Recounted s (s.modifyPage p fun q => { q with refCount := f q.refCount }) :=
  ⟨.modify s.pmm p f, rfl, rfl⟩

theorem incRef_recounted (phys : ℕ) : Recounted s (s.incRef phys) := by
  unfold incRef
  split
  · exact Recounted.modifyPage s _ (· + 1)
  · exact .refl s

theorem decRef_recounted (phys : ℕ) : Recounted s (s.decRef phys) := by
  unfold decRef
  split
  · split_ifs
    · exact Recounted.modifyPage s _ (· - 1)
    · exact .refl s
  · exact .refl s

theorem incRef_refCount (phys x : ℕ) :
    ((s.incRef phys).pmm.page x).refCount =
      if s.pmm.physToPage phys = some x then (s.pmm.page x).refCount + 1
      else (s.pmm.page x).refCount := by
  unfold incRef
  cases hp : s.pmm.physToPage phys with
  | none => simp
  | some p =>
    by_cases hx : x = p
    · simp [hx]
    · simp [hx, Ne.symm hx]

theorem decRef_refCount (phys x : ℕ) :
    ((s.decRef phys).pmm.page x).refCount =
      if s.pmm.physToPage phys = some x ∧ 0 < (s.pmm.page x).refCount then
        (s.pmm.page x).refCount - 1 else (s.pmm.page x).refCount := by
  unfold decRef
  cases hp : s.pmm.physToPage phys with
  | none => simp
  | some p =>
    by_cases hx : x = p
    · split_ifs <;> simp_all
    · simp only [Option.some.injEq, Ne.symm hx, false_and, if_false]
      split_ifs
      · simp [hx]
      · rfl

/-- The page `p` becomes an empty table under the entry `i` of `t`. -/
def linkTable (t i p : ℕ) : Mmu :=
  (((s.zeroPage p).modifyPage p fun q => { q with refCount := 0 }).incRef (t * pageSize)).setEntry t i
    (PtEntry.ofPage p ||| ptePresent ||| pteWritable ||| pteUser)

theorem linkTable_entry (t i p q j : ℕ) : (s.linkTable t i p).entry q j =
    if q = t ∧ j = i then PtEntry.ofPage p ||| ptePresent ||| pteWritable ||| pteUser
    else if q = p then 0 else s.entry q j := by
  unfold linkTable
  rw [setEntry_entry, (incRef_recounted _ _).entry]
  simp

theorem linkTable_recounted (t i p : ℕ) : s.pmm.Recounted (s.linkTable t i p).pmm :=
  (Recounted.modify s.pmm p fun _ => 0).trans
    (incRef_recounted ((s.zeroPage p).modifyPage p fun q => { q with refCount := 0 }) _).pmm

end

variable {own : List ℕ → ℕ → Prop} {big : Prop} {s s' : Mmu} {place place' : Places}
  {free free' : ℕ → List ℕ} {alloc alloc' : Set Block} {t q m i n : ℕ} {π : List ℕ} {e : PtEntry}

/-- The tables form a forest, and their pages are allocated one by one. -/
structure Grove (own : List ℕ → ℕ → Prop) (big : Prop) (s : Mmu) (place : Places)
    (free : ℕ → List ℕ) (alloc : Set Block) : Prop where
  forest : Forest own big s place
  wf : s.pmm.Wf free alloc
  total_le : s.pmm.totalPages ≤ 2 ^ 40
  table_alloc : ∀ p x, place p = some x → ⟨p, 0⟩ ∈ alloc

theorem Grove.recounted (h : Grove own big s place free alloc) (hr : Recounted s s') :
    Grove own big s' place free alloc := by
  refine ⟨h.forest.congr fun _ _ _ _ _ _ _ => ?_, h.wf.recounted hr.pmm, ?_, h.table_alloc⟩
  · rw [hr.entry]
    exact ⟨rfl, rfl, rfl⟩
  · rw [hr.pmm.totalPages]
    exact h.total_le

theorem Grove.place_eq_none (h : Grove own big s place free alloc) (hq : ⟨q, 0⟩ ∉ alloc) :
    place q = none := by
  cases hp : place q with
  | none => rfl
  | some x => exact absurd (h.table_alloc q x hp) hq

/-- Entry `j` of table `q` is on the walk from `π` along `is`. -/
def OnWalk (place : Places) (m : ℕ) (π is : List ℕ) (q j : ℕ) : Prop :=
  ∃ pre rest, is = pre ++ j :: rest ∧ place q = some (m, π ++ pre)

variable {is : List ℕ}

theorem OnWalk.length_lt {j : ℕ} (h : OnWalk place m π is q j) :
    ∃ π', place q = some (m, π') ∧ π'.length < π.length + is.length := by
  obtain ⟨pre, rest, rfl, hq⟩ := h
  refine ⟨_, hq, ?_⟩
  simp only [length_append, length_cons]
  omega

theorem onWalk_cons {j : ℕ} : OnWalk place m π (i :: is) q j ↔
    (j = i ∧ place q = some (m, π)) ∨ OnWalk place m (π ++ [i]) is q j := by
  constructor
  · rintro ⟨pre, rest, he, hq⟩
    cases pre with
    | nil =>
      obtain ⟨rfl, -⟩ := List.cons.inj he
      rw [append_nil] at hq
      exact .inl ⟨rfl, hq⟩
    | cons a pre =>
      obtain ⟨rfl, rfl⟩ := List.cons.inj he
      refine .inr ⟨pre, rest, rfl, ?_⟩
      rw [hq, append_assoc]
      rfl
  · rintro (⟨rfl, hq⟩ | ⟨pre, rest, rfl, hq⟩)
    · exact ⟨[], is, rfl, by rw [hq, append_nil]⟩
    · refine ⟨i :: pre, rest, rfl, ?_⟩
      rw [hq, append_assoc]
      rfl

theorem not_onWalk_nil {j : ℕ} : ¬ OnWalk place m π [] q j := by
  rintro ⟨pre, rest, he, -⟩
  simp at he

/-- A walk with allocation from the table at `π` along `is`: new tables come in, nothing goes. -/
structure Grown (own : List ℕ → ℕ → Prop) (big : Prop) (s : Mmu) (place : Places)
    (alloc : Set Block) (m : ℕ) (π is : List ℕ) (s' : Mmu) (place' : Places)
    (free' : ℕ → List ℕ) (alloc' : Set Block) : Prop
    extends Grove own big s' place' free' alloc' where
  place_eq : ∀ p, ⟨p, 0⟩ ∈ alloc → place' p = place p
  alloc_sub : alloc ⊆ alloc'
  kernelMap : s'.kernelMap = s.kernelMap
  totalPages : s'.pmm.totalPages = s.pmm.totalPages
  entry_eq : ∀ q j, ⟨q, 0⟩ ∈ alloc → ¬ OnWalk place m π is q j → s'.entry q j = s.entry q j
  present : ∀ q j, ⟨q, 0⟩ ∈ alloc → (s.entry q j).has ptePresent →
    (s'.entry q j).has ptePresent ∧ (s'.entry q j).frame = (s.entry q j).frame
  fresh_below : ∀ q x, place' q = some x → ⟨q, 0⟩ ∉ alloc → x.2 ≠ []
  fresh : ∀ q x, place' q = some x → ⟨q, 0⟩ ∉ alloc → x.2.length = 3 →
    ∀ j, (s'.entry q j).has ptePresent = false
  refCount : ∀ x, ⟨x, 0⟩ ∈ alloc → place x = none →
    (s'.pmm.page x).refCount = (s.pmm.page x).refCount

theorem Grown.refl (h : Grove own big s place free alloc) (m : ℕ) (π is : List ℕ) :
    Grown own big s place alloc m π is s place free alloc where
  toGrove := h
  place_eq := fun _ _ => rfl
  alloc_sub := subset_rfl
  kernelMap := rfl
  totalPages := rfl
  entry_eq := fun _ _ _ _ => rfl
  present := fun _ _ _ hp => ⟨hp, rfl⟩
  fresh_below := fun q x hq hn => absurd (h.table_alloc q x hq) hn
  fresh := fun q x hq hn => absurd (h.table_alloc q x hq) hn
  refCount := fun _ _ _ => rfl

theorem Grown.trans {s'' : Mmu} {place'' : Places} {free'' : ℕ → List ℕ} {alloc'' : Set Block}
    (hlen : π.length + (i :: is).length ≤ 3)
    (h : Grown own big s place alloc m π [i] s' place' free' alloc')
    (h' : Grown own big s' place' alloc' m (π ++ [i]) is s'' place'' free'' alloc'') :
    Grown own big s place alloc m π (i :: is) s'' place'' free'' alloc'' where
  toGrove := h'.toGrove
  place_eq := fun p hp => (h'.place_eq p (h.alloc_sub hp)).trans (h.place_eq p hp)
  alloc_sub := h.alloc_sub.trans h'.alloc_sub
  kernelMap := h'.kernelMap.trans h.kernelMap
  totalPages := h'.totalPages.trans h.totalPages
  entry_eq := by
    intro q j hq hnot
    rw [h'.entry_eq q j (h.alloc_sub hq), h.entry_eq q j hq]
    · intro hw
      exact hnot (onWalk_cons.mpr ((onWalk_cons.mp hw).imp_right not_onWalk_nil.elim))
    · rintro ⟨pre, rest, rfl, hp⟩
      rw [h.place_eq q hq] at hp
      exact hnot (onWalk_cons.mpr (.inr ⟨pre, rest, rfl, hp⟩))
  present := by
    intro q j hq hp
    obtain ⟨hp1, hf1⟩ := h.present q j hq hp
    obtain ⟨hp2, hf2⟩ := h'.present q j (h.alloc_sub hq) hp1
    exact ⟨hp2, hf2.trans hf1⟩
  fresh_below := by
    intro q x hq hn
    by_cases hq' : (⟨q, 0⟩ : Block) ∈ alloc'
    · rw [h'.place_eq q hq'] at hq
      exact h.fresh_below q x hq hn
    · exact h'.fresh_below q x hq hq'
  fresh := by
    intro q x hq hn hx j
    by_cases hq' : (⟨q, 0⟩ : Block) ∈ alloc'
    · -- the table came with the first entry, and the rest of the walk does not write to it
      have hpl := h'.place_eq q hq'
      rw [hq] at hpl
      rw [h'.entry_eq q j hq', h.fresh q x hpl.symm hn hx]
      intro hw
      obtain ⟨π', hπ', hlt⟩ := hw.length_lt
      cases hπ'.symm.trans hpl.symm
      simp only [length_append, length_cons, length_nil] at hlen hlt hx
      omega
    · exact h'.fresh q x hq hq' hx j
  refCount := by
    intro x hx hpl
    rw [h'.refCount x (h.alloc_sub hx) (by rw [h.place_eq x hx, hpl]), h.refCount x hx hpl]

theorem Grown.root_iff {x : ℕ} (hs : Grove own big s place free alloc)
    (h : Grown own big s place alloc m π is s' place' free' alloc') :
    place' x = some (x, []) ↔ place x = some (x, []) := by
  by_cases hx : (⟨x, 0⟩ : Block) ∈ alloc
  · rw [h.place_eq x hx]
  · rw [hs.place_eq_none hx]
    constructor
    · intro hp
      exact absurd rfl (h.fresh_below x _ hp hx)
    · nofun

section
variable (h : Grove own big s place free alloc)
include h

theorem Grove.withPmm {pmm : Pmm}
    (hwf : pmm.Wf free' alloc') (htotal : pmm.totalPages = s.pmm.totalPages)
    (hsub : ∀ p x, place p = some x → ⟨p, 0⟩ ∈ alloc') :
    Grove own big { s with pmm := pmm } place free' alloc' :=
  ⟨h.forest.congr fun _ _ _ _ _ _ _ => ⟨rfl, rfl, rfl⟩, hwf, htotal ▸ h.total_le, hsub⟩

section
variable {pmm' : Pmm} {p : ℕ}

theorem Grove.new_lt (ha : Allocated s.pmm free alloc 0 pmm' free' p) : p < 2 ^ 40 := by
  have := ha.wf.lt_total (Set.mem_insert _ _)
  have := h.total_le
  have := ha.totalPages
  omega

/-- A new page becomes a table. -/
theorem Grove.withTable (ha : Allocated s.pmm free alloc 0 pmm' free' p) {x : ℕ × List ℕ}
    (hforest : Forest own big s' (update place p (some x))) (hr : pmm'.Recounted s'.pmm) :
    Grove own big s' (update place p (some x)) free' (insert ⟨p, 0⟩ alloc) := by
  refine ⟨hforest, ha.wf.recounted hr, ?_, fun q y hq => ?_⟩
  · rw [hr.totalPages, ha.totalPages]
    exact h.total_le
  · rcases Places.update_some.mp hq with ⟨rfl, -⟩ | ⟨-, hq⟩
    · exact Set.mem_insert _ _
    · exact .inr (h.table_alloc q y hq)

end

section
variable (ht : place t = some (m, π))
include ht

theorem Grove.forest_linkTable (hlen : π.length < 3) (hi : own π i)
    (hnot : (s.entry t i).has ptePresent = false) {p : ℕ} (hp : place p = none) (hlt : p < 2 ^ 40)
    (pmm : Pmm) : Forest own big (({ s with pmm := pmm } : Mmu).linkTable t i p)
      (update place p (some (m, π ++ [i]))) := by
  obtain ⟨hpres, hhuge, hframe⟩ := tableEntry_spec hlt
  have hpt : p ≠ t := by
    rintro rfl
    simp [hp] at ht
  have hentry := linkTable_entry { s with pmm := pmm } t i p
  have hti := (hentry t i).trans (if_pos ⟨rfl, rfl⟩)
  apply h.forest.insert ht hlen hi _ hp
  · rw [hti]
    exact ⟨hpres, hhuge⟩
  · rw [hti]
    exact hframe
  · intro _ j
    rw [hentry, if_neg (fun hc => hpt hc.1), if_pos rfl, PtEntry.zero_has]
  · intro q j hq hqj
    rw [hentry, if_neg hqj, if_neg hq]
  · intro hl
    simp [hl.1] at hnot

theorem newTable_grown
    (hlen : π.length < 3) (hi : own π i) (hnot : (s.entry t i).has ptePresent = false) :
    (∃ s' place' free' alloc', s.newTable t i = some (s', true) ∧
      Grown own big s place alloc m π [i] s' place' free' alloc' ∧ (s'.entry t i).Links ∧
      place' (s'.entry t i).frame = some (m, π ++ [i]) ∧ Took 1 free alloc free' alloc') ∨
    (∃ s', s.newTable t i = some (s', false) ∧
      Grown own big s place alloc m π [i] s' place free alloc ∧ freePages free = ∅) := by
  have htal := h.table_alloc t _ ht
  unfold newTable pageAlloc
  rcases pmmAllocPages_spec h.wf 0 with ⟨pmm1, free1, p, he, ha⟩ | ⟨he, hnone⟩
  · left
    have hpn := h.place_eq_none ha.fresh
    have hpt : p ≠ t := by
      rintro rfl
      simp [hpn] at ht
    have hlt := h.new_lt ha
    obtain ⟨hpres, hhuge, hframe⟩ := tableEntry_spec hlt
    let s4 := ({ s with pmm := pmm1 } : Mmu).linkTable t i p
    have hrec : pmm1.Recounted s4.pmm := linkTable_recounted { s with pmm := pmm1 } t i p
    have hentry := linkTable_entry { s with pmm := pmm1 } t i p
    have hti := (hentry t i).trans (if_pos ⟨rfl, rfl⟩)
    refine ⟨s4, update place p (some (m, π ++ [i])), free1, insert ⟨p, 0⟩ alloc, ?_, ?_, ?_,
      ?_, ha.cover_eq, (freePages_alloc h.wf ha).1, (freePages_alloc h.wf ha).2⟩
    · rw [he]
      rfl
    · refine ⟨h.withTable ha (h.forest_linkTable ht hlen hi hnot hpn hlt pmm1) hrec, ?_,
        Set.subset_insert _ _, ?_, ?_, ?_, ?_, ?_, ?_, ?_⟩
      · intro q hq
        rw [update_of_ne (ha.ne hq)]
      · exact (incRef_recounted _ _).kernelMap
      · exact hrec.totalPages.trans ha.totalPages
      · intro q j hq hw
        rw [hentry, if_neg, if_neg (ha.ne hq)]
        rintro ⟨rfl, rfl⟩
        exact hw (onWalk_cons.mpr (.inl ⟨rfl, ht⟩))
      · intro q j hq hp
        have hqj : ¬ (q = t ∧ j = i) := by
          rintro ⟨rfl, rfl⟩
          simp [hnot] at hp
        rw [hentry, if_neg hqj, if_neg (ha.ne hq)]
        exact ⟨hp, rfl⟩
      · intro q x hq hn
        rcases Places.update_some.mp hq with ⟨-, rfl⟩ | ⟨-, hq⟩
        · simp
        · exact absurd (h.table_alloc q x hq) hn
      · intro q x hq hn _ j
        rcases Places.update_some.mp hq with ⟨rfl, -⟩ | ⟨-, hq⟩
        · rw [hentry, if_neg (fun hc => hpt hc.1), if_pos rfl, PtEntry.zero_has]
        · exact absurd (h.table_alloc q x hq) hn
      · intro x hx hpl
        have hxt : t ≠ x := by
          rintro rfl
          simp [hpl] at ht
        have hwf := ha.wf.recounted (Recounted.modify pmm1 p fun _ => 0)
        unfold s4 linkTable
        rw [setEntry_pmm, incRef_refCount, modifyPage_pmm, zeroPage_pmm,
          hwf.physToPage (.inr htal), if_neg (by simpa using hxt), ← ha.refCount x (ha.ne hx)]
        simp [ha.ne hx]
    · rw [hti]
      exact ⟨hpres, hhuge⟩
    · rw [hti, hframe, update_self]
  · right
    have hwf : ({ s.pmm with outOfMemory := s.pmm.outOfMemory ++ [0] } : Pmm).Wf free alloc :=
      h.wf.recounted ⟨fun _ => rfl, rfl, rfl⟩
    have hg := h.withPmm hwf rfl h.table_alloc
    refine ⟨{ s with pmm := { s.pmm with outOfMemory := s.pmm.outOfMemory ++ [0] } }, ?_, ?_,
      freePages_eq_empty fun c hc => hnone c (Nat.zero_le _) hc⟩
    · rw [he]
      rfl
    · exact { Grown.refl h m π [i] with toGrove := hg }

theorem Grove.retag (i : ℕ) :
    Grown own big s place alloc m π [i]
      (s.setEntry t i (s.entry t i ||| (pteWritable ||| pteUser))) place free alloc := by
  have hsame (q j : ℕ) :
      ((s.setEntry t i (s.entry t i ||| (pteWritable ||| pteUser))).entry q j).has ptePresent =
          (s.entry q j).has ptePresent ∧
        ((s.setEntry t i (s.entry t i ||| (pteWritable ||| pteUser))).entry q j).has pteHuge =
          (s.entry q j).has pteHuge ∧
        ((s.setEntry t i (s.entry t i ||| (pteWritable ||| pteUser))).entry q j).frame =
          (s.entry q j).frame := by
    rw [setEntry_entry]
    split_ifs with hif
    · obtain ⟨rfl, rfl⟩ := hif
      have hbits (flag : PtEntry) (hf : (pteWritable ||| pteUser).has flag = false) :
          (s.entry q j ||| (pteWritable ||| pteUser)).has flag = (s.entry q j).has flag := by
        rw [PtEntry.has_or (s.entry q j), hf, Bool.or_false]
      exact ⟨hbits _ (by decide), hbits _ (by decide), PtEntry.frame_or _ (by decide)⟩
    · exact ⟨rfl, rfl, rfl⟩
  refine ⟨{ h with forest := h.forest.congr fun q _ _ j _ _ _ => hsame q j },
    fun _ _ => rfl, subset_rfl, rfl, rfl, ?_, ?_, ?_, ?_, fun _ _ _ => rfl⟩
  · intro q j _ hw
    rw [setEntry_entry, if_neg]
    rintro ⟨rfl, rfl⟩
    exact hw (onWalk_cons.mpr (.inl ⟨rfl, ht⟩))
  · intro q j _ hp
    obtain ⟨h1, -, h3⟩ := hsame q j
    exact ⟨h1.trans hp, h3⟩
  · intro q x hq hn
    exact absurd (h.table_alloc q x hq) hn
  · intro q x hq hn
    exact absurd (h.table_alloc q x hq) hn

theorem vmmNextTable_grown (hlen : π.length < 3) (hi : own π i) :
    ∃ s' r place' free' alloc', s.vmmNextTable t i true = some (s', r) ∧
      Grown own big s place alloc m π [i] s' place' free' alloc' ∧
      (∀ t', r = some t' → place' t' = some (m, π ++ [i])) ∧
      (r = none → freePages free' = ∅ ∨ big) ∧ Took 1 free alloc free' alloc' := by
  unfold vmmNextTable
  by_cases hp : (s.entry t i).has ptePresent
  · have hg := h.retag ht i
    have hent : (s.setEntry t i (s.entry t i ||| (pteWritable ||| pteUser))).entry t i =
        s.entry t i ||| (pteWritable ||| pteUser) := by simp
    have hbits : (s.entry t i ||| (pteWritable ||| pteUser)).has pteHuge =
        (s.entry t i).has pteHuge := by
      rw [PtEntry.has_or (s.entry t i), show (pteWritable ||| pteUser).has pteHuge = false by decide,
        Bool.or_false]
    rcases h.forest.below t m π i ht hlen hi hp with ⟨hhuge, hplace⟩ | ⟨hbig, -, hhuge⟩
    · refine ⟨_, some (s.entry t i).frame, place, free, alloc, ?_, hg, ?_, ?_, .refl ..⟩
      · simp only [hp, hent, hbits, hhuge, if_true, Bool.false_eq_true, if_false, Option.pure_def]
        rw [PtEntry.frame_or _ (by decide)]
      · rintro t' ⟨⟩
        exact hplace
      · nofun
    · refine ⟨_, none, place, free, alloc, ?_, hg, ?_, fun _ => .inr hbig, .refl ..⟩
      · simp only [hp, hent, hbits, hhuge, if_true, Option.pure_def]
      · nofun
  · rw [Bool.not_eq_true] at hp
    rcases newTable_grown h ht hlen hi hp with
      ⟨s', place', free', alloc', he, hg, hl, hplace, htook⟩ | ⟨s', he, hg, hempty⟩
    · refine ⟨s', some (s'.entry t i).frame, place', free', alloc', ?_, hg, ?_, ?_, htook⟩
      · simp [hp, he, hl.2]
      · rintro t' ⟨⟩
        exact hplace
      · nofun
    · refine ⟨s', none, place, free, alloc, ?_, hg, ?_, fun _ => .inl hempty, .refl ..⟩
      · simp [hp, he]
      · nofun

end

end

theorem vmmGetPteLoop_grown (is : List ℕ) (h : Grove own big s place free alloc)
    (ht : place t = some (m, π)) (his : OwnPath own π is) (hlen : π.length + is.length ≤ 3) :
    ∃ s' r place' free' alloc', vmmGetPteLoop true is s t = some (s', r) ∧
      Grown own big s place alloc m π is s' place' free' alloc' ∧
      (∀ t', r = some t' → place' t' = some (m, π ++ is)) ∧
      (r = none → freePages free' = ∅ ∨ big) ∧ Took is.length free alloc free' alloc' := by
  induction is generalizing s t π place free alloc with
  | nil =>
    refine ⟨s, some t, place, free, alloc, rfl, Grown.refl h m π [], ?_, ?_, .refl ..⟩
    · rintro t' ⟨⟩
      rw [append_nil]
      exact ht
    · rintro ⟨⟩
  | cons i is ih =>
    have hlen' := hlen
    rw [length_cons] at hlen'
    obtain ⟨s1, r1, place1, free1, alloc1, he1, hg1, hr1, hn1, ht1⟩ :=
      vmmNextTable_grown h ht (by omega) his.1
    unfold vmmGetPteLoop
    rw [he1]
    cases r1 with
    | none =>
      refine ⟨s1, none, place1, free1, alloc1, rfl, ?_, ?_, hn1, ?_⟩
      · exact hg1.trans hlen (Grown.refl hg1.toGrove m _ is)
      · rintro _ ⟨⟩
      · exact ht1.trans (.refl 0 ..) (by rw [length_cons]; omega)
    | some t1 =>
      obtain ⟨s2, r2, place2, free2, alloc2, he2, hg2, hr2, hn2, ht2⟩ := ih hg1.toGrove (hr1 t1 rfl)
        his.2 (by rw [length_append, length_singleton]; omega)
      refine ⟨s2, r2, place2, free2, alloc2, he2, hg1.trans hlen hg2, ?_, hn2, ht1.trans ht2 le_rfl⟩
      intro t' ht'
      rw [hr2 t' ht', append_assoc]
      rfl

end Mmu
end Doppio
