import Doppio.Mmu.BuddyRuns

/-! `page_alloc` and `page_free` on many CPUs. The allocator takes no lock: a read of the head of a
free list, an `add_to_list` and a `remove_from_list` are steps between which another CPU may work on
the lists. -/
namespace Doppio
open Function Set
open Buddy
namespace Pmm

/-- In `pmm_alloc_pages` (up to `split`) or `pmm_free_pages`. -/
inductive Pc where
  | idle
  | test (order current : ℕ)
  | read (order current : ℕ)
  | unlink (order current : ℕ) (page : Option ℕ)
  | split (order current page : ℕ)
  | mark (page order : ℕ)
  | merge (page order : ℕ)
  | join (page order buddy : ℕ)
  | add (page order : ℕ)
  deriving DecidableEq

/-- The end of `pmm_alloc_pages` without a block. -/
def reportEmpty (s : Pmm) (order : ℕ) : Pmm :=
  { s with outOfMemory := s.outOfMemory ++ [order] }

/-- One step of a CPU at a place: the allocator, the next place and the block returned; `none` is an
access through null. -/
def advance (s : Pmm) : Pc → Option (Pmm × Pc × Option Block)
  | .idle => none
  | .test order current =>
    if current < maxOrder then
      -- the test of the head; the head is read again for the block itself
      match s.freeLists current with
      | some _ => some (s, .read order current, none)
      | none => some (s, .test order (current + 1), none)
    else some (s.reportEmpty order, .idle, none)
  | .read order current => some (s, .unlink order current (s.freeLists current), none)
  | .unlink order current (some page) =>
    some (s.removeFromList current page, .split order current page, none)
  | .unlink order _ none => some (s.reportEmpty order, .idle, none)
  | .split order current page =>
    if order < current then do
      let buddy ← s.getBuddy page (current - 1)
      some (s.giveUpper buddy (current - 1), .split order (current - 1) page, none)
    else
      some (s.modify page fun p => { p with isFree := false, order := order, refCount := 0 },
        .idle, some ⟨page, order⟩)
  | .mark page order =>
    some (s.modify page fun p => { p with isFree := true, order := order }, .merge page order, none)
  | .merge page order =>
    if order < maxOrder - 1 then
      match s.getBuddy page order with
      | none => some (s, .add page order, none)
      | some buddy =>
        if (s.page buddy).isFree = false ∨ (s.page buddy).order ≠ order then
          some (s, .add page order, none)
        else some (s, .join page order buddy, none)
    else some (s, .add page order, none)
  | .join page order buddy =>
    let lower := if buddy < page then buddy else page
    some ((s.removeFromList order buddy).modify lower fun p => { p with order := order + 1 },
      .merge lower (order + 1), none)
  | .add page order => some (s.addToList order page, .idle, none)

/-- The block taken off its list and not yet returned. -/
structure Taken (s : Pmm) (free : ℕ → List ℕ) (alloc : Set Block) (b : Block) : Prop where
  shape : s.Shape free (insert b alloc)
  not_alloc : b ∉ alloc
  alloc_flag : ∀ c ∈ alloc, (s.page c.head).isFree = false
  free_flag : ∀ x, (s.page x).isFree → x ∈ cover (blocks free (insert b alloc))

variable {s s' : Pmm} {free : ℕ → List ℕ} {alloc : Set Block} {o p : ℕ} {b : Block}

theorem Wf.reportEmpty (h : s.Wf free alloc) (order : ℕ) : (s.reportEmpty order).Wf free alloc :=
  ⟨{ h.shape with }, h.alloc_flag, h.free_flag⟩

theorem Wf.take (h : s.Wf free alloc) (ho : o < maxOrder) (hp : s.freeLists o = some p) :
    ∃ free', Taken (s.removeFromList o p) free' alloc ⟨p, o⟩ := by
  rw [(h.shape.linked o ho).head_eq] at hp
  have hmem : p ∈ free o := List.mem_of_head? hp
  have hflag (x : ℕ) : ((s.removeFromList o p).page x).isFree = (s.page x).isFree :=
    Page.isFree_eq (removeFromList_data s o p x)
  refine ⟨_, h.shape.take ho hmem, fun hm => h.shape.not_free _ hm hmem, ?_, ?_⟩
  · intro c hc
    rw [hflag]
    exact h.alloc_flag c hc
  · intro x hx
    rw [hflag] at hx
    rw [blocks_take (h.shape.nodup o ho) ho hmem]
    exact h.free_flag x hx

theorem Taken.head_not_mem (h : Taken s free alloc b) {c : Block} (hc : c ∈ alloc) :
    c.head ∉ b.pages := by
  intro hm
  have he := h.shape.apart.eq_of_mem (.inr (.inr hc)) (.inr (mem_insert _ _)) c.head_mem hm
  exact h.not_alloc (he ▸ hc)

theorem Taken.giveUpper (h : Taken s free alloc ⟨p, o + 1⟩) :
    s.getBuddy p o = some (p + 2 ^ o) ∧
      ∃ free', Taken (s.giveUpper (p + 2 ^ o) o) free' alloc ⟨p, o⟩ := by
  obtain ⟨hget, hs, hna, -, hflag, hcov⟩ := h.shape.giveUpper h.not_alloc
  refine ⟨hget, _, hs, hna, ?_, ?_⟩
  · intro c hc
    rw [hflag _ (h.head_not_mem hc)]
    exact h.alloc_flag c hc
  · intro x hx
    rw [hcov]
    by_cases hxb : x ∈ (Block.mk p (o + 1)).pages
    · exact ⟨_, .inr (mem_insert _ _), hxb⟩
    · rw [hflag x hxb] at hx
      exact h.free_flag x hx

theorem Taken.wf (h : Taken s free alloc ⟨p, o⟩) :
    (s.modify p fun q => { q with isFree := false, order := o, refCount := 0 }).Wf free
      (insert ⟨p, o⟩ alloc) := by
  have hmem : (⟨p, o⟩ : Block) ∈ insert ⟨p, o⟩ alloc := mem_insert _ _
  refine ⟨h.shape.modify fun o' ho' => h.shape.not_mem_free hmem (Block.head_mem _) ho', ?_, ?_⟩
  · rintro c (rfl | hc)
    · simp
    · have hne : c.head ≠ p := fun e => h.head_not_mem hc (e ▸ Block.head_mem ⟨p, o⟩)
      simpa [hne] using h.alloc_flag c hc
  · intro x hx
    by_cases hxp : x = p
    · simp [hxp] at hx
    · rw [modify_page, if_neg hxp] at hx
      exact h.free_flag x hx

/-- The free lists beside the blocks handed out, with one CPU inside the allocator. -/
def Inside (s : Pmm) (free : ℕ → List ℕ) (alloc : Set Block) : Pc → Prop
  | .idle => s.Wf free alloc
  | .test order current => s.Wf free alloc ∧ order ≤ current
  | .read order current => s.Wf free alloc ∧ order ≤ current ∧ current < maxOrder
  | .unlink order current page =>
    s.Wf free alloc ∧ order ≤ current ∧ current < maxOrder ∧ page = s.freeLists current
  | .split order current page => Taken s free alloc ⟨page, current⟩ ∧ order ≤ current
  | .mark page order => s.Wf free (insert ⟨page, order⟩ alloc) ∧ ⟨page, order⟩ ∉ alloc
  | .merge page order => InHand s free alloc ⟨page, order⟩
  | .join page order buddy =>
    InHand s free alloc ⟨page, order⟩ ∧ order < maxOrder - 1 ∧
      buddy = (Block.mk page order).buddy.head ∧ buddy ∈ free order
  | .add page order => InHand s free alloc ⟨page, order⟩

theorem Inside.shape {pc : Pc} (h : Inside s free alloc pc) :
    ∃ alloc', alloc ⊆ alloc' ∧ s.Shape free alloc' := by
  cases pc with
  | idle => exact ⟨alloc, subset_rfl, Wf.shape h⟩
  | test => exact ⟨alloc, subset_rfl, h.1.shape⟩
  | read => exact ⟨alloc, subset_rfl, h.1.shape⟩
  | unlink => exact ⟨alloc, subset_rfl, h.1.shape⟩
  | split => exact ⟨_, subset_insert _ _, h.1.shape⟩
  | mark => exact ⟨_, subset_insert _ _, h.1.shape⟩
  | merge => exact ⟨_, subset_insert _ _, InHand.shape h⟩
  | join => exact ⟨_, subset_insert _ _, h.1.shape⟩
  | add => exact ⟨_, subset_insert _ _, InHand.shape h⟩

theorem InHand.advance (h : InHand s free alloc ⟨p, o⟩) :
    s.advance (.merge p o) = some (s, .add p o, none) ∨
      ∃ q, s.advance (.merge p o) = some (s, .join p o q, none) ∧ o < maxOrder - 1 ∧
        q = (Block.mk p o).buddy.head ∧ q ∈ free o := by
  by_cases ho : o < maxOrder - 1
  · have hfit := h.shape.apart.fits _ h.mem
    have htotal := h.shape.total_le
    have hpos := Nat.two_pow_pos o
    simp only at hfit
    have hget := getBuddy_eq s (p := p) (o := o) (by omega)
    by_cases hend : s.totalPages ≤ (Block.mk p o).buddy.head
    · rw [if_pos hend] at hget
      left
      simp only [Pmm.advance, if_pos ho, hget]
    · rw [if_neg hend] at hget
      simp only [Pmm.advance, hget]
      split_ifs with htest
      · exact .inl rfl
      · rw [not_or, Bool.not_eq_false, not_not] at htest
        exact .inr ⟨_, rfl, ho, rfl, h.buddy_free htest.1 htest.2⟩
  · left
    simp only [Pmm.advance, if_neg ho]

theorem Inside.advance {pc pc' : Pc} {r : Option Block} (h : Inside s free alloc pc)
    (he : s.advance pc = some (s', pc', r)) :
    (r = none ∧ ∃ free', Inside s' free' alloc pc') ∨
      ∃ b free', r = some b ∧ b ∉ alloc ∧ Inside s' free' (insert b alloc) pc' := by
  cases pc with
  | idle => cases he
  | test order current =>
    obtain ⟨hw, hle⟩ := h
    simp only [Pmm.advance] at he
    split_ifs at he with hc
    · cases hl : s.freeLists current with
      | some q =>
        simp only [hl] at he
        obtain ⟨rfl, rfl, rfl⟩ := he
        exact .inl ⟨rfl, free, ⟨hw, hle, hc⟩⟩
      | none =>
        simp only [hl] at he
        obtain ⟨rfl, rfl, rfl⟩ := he
        exact .inl ⟨rfl, free, ⟨hw, by omega⟩⟩
    · cases he
      exact .inl ⟨rfl, free, hw.reportEmpty order⟩
  | read order current =>
    cases he
    exact .inl ⟨rfl, free, ⟨h.1, h.2.1, h.2.2, rfl⟩⟩
  | unlink order current page =>
    obtain ⟨hw, hle, hc, hp⟩ := h
    cases page with
    | none =>
      cases he
      exact .inl ⟨rfl, free, hw.reportEmpty order⟩
    | some q =>
      cases he
      obtain ⟨free', ht⟩ := hw.take hc hp.symm
      exact .inl ⟨rfl, free', ⟨ht, hle⟩⟩
  | split order current page =>
    obtain ⟨ht, hle⟩ := h
    simp only [Pmm.advance] at he
    split_ifs at he with hc
    · obtain ⟨c, rfl⟩ : ∃ c, current = c + 1 := ⟨current - 1, by omega⟩
      obtain ⟨hget, free', ht'⟩ := ht.giveUpper
      rw [Nat.add_sub_cancel, hget] at he
      cases he
      exact .inl ⟨rfl, free', ⟨ht', by omega⟩⟩
    · obtain rfl : current = order := by omega
      cases he
      exact .inr ⟨_, free, rfl, ht.not_alloc, ht.wf⟩
  | mark page order =>
    cases he
    exact .inl ⟨rfl, free, Wf.inHand h.1 h.2⟩
  | merge page order =>
    rcases InHand.advance h with hadd | ⟨q, hjoin, ho, hq, hfree⟩
    · cases hadd.symm.trans he
      exact .inl ⟨rfl, free, h⟩
    · cases hjoin.symm.trans he
      exact .inl ⟨rfl, free, ⟨h, ho, hq, hfree⟩⟩
  | join page order buddy =>
    obtain ⟨hh, ho, rfl, hq⟩ := h
    have hm := hh.merge ho hq
    have hlow : (if (Block.mk page order).buddy.head < page then (Block.mk page order).buddy.head
        else page) = (Block.mk page order).parent.head := by
      change _ = min page (Block.mk page order).buddy.head
      rw [min_comm, min_def_lt]
    simp only [Pmm.advance, hlow] at he
    cases he
    exact .inl ⟨rfl, _, hm.inHand⟩
  | add page order =>
    cases he
    exact .inl ⟨rfl, _, InHand.put h⟩

/-- The allocator, the CPUs' places, and the blocks returned and not yet freed, as often as
returned. -/
structure Cpus (ι : Type*) where
  pmm : Pmm
  pc : ι → Pc
  held : List Block

inductive CpuEvent (ι : Type*) where
  | call (cpu : ι) (c : Call)
  | run (cpu : ι)

/-- The links lead from the head of the free list to the page. -/
inductive OnList (s : Pmm) (o : ℕ) : ℕ → Prop where
  | head {p : ℕ} : s.freeLists o = some p → OnList s o p
  | next {p q : ℕ} : OnList s o p → (s.page p).next = some q → OnList s o q

theorem Linked.mem_of_next {page : ℕ → Page} {prev head : Option ℕ} {xs : List ℕ} {q : ℕ}
    (h : Linked page prev head xs) (hp : p ∈ xs) (hq : (page p).next = some q) : q ∈ xs := by
  induction xs generalizing prev head with
  | nil => cases hp
  | cons x xs ih =>
    rcases List.mem_cons.mp hp with rfl | hp
    · have hn := h.2.2.head_eq
      rw [hq] at hn
      exact List.mem_cons_of_mem _ (List.mem_of_head? hn.symm)
    · exact List.mem_cons_of_mem _ (ih h.2.2 hp)

theorem Shape.mem_of_onList (h : s.Shape free alloc) (ho : o < maxOrder) (hp : OnList s o p) :
    p ∈ free o := by
  induction hp with
  | head he =>
    rw [(h.linked o ho).head_eq] at he
    exact List.mem_of_head? he
  | next _ hq ih => exact (h.linked o ho).mem_of_next ih hq

namespace Cpus

variable {ι : Type*} [DecidableEq ι] {st st' : Cpus ι} {i : ι}

section
variable (st : Cpus ι)

/-- A CPU enters the allocator or takes its next step. A block leaves `held` with the call that
frees it. -/
def step : CpuEvent ι → Option (Cpus ι)
  | .call i (.pmmAllocPages order) =>
    if st.pc i = .idle then
      some { st with pc := update st.pc i (.test order order) }
    else none
  | .call i (.pmmFreePages page order) =>
    if st.pc i = .idle then
      some { st with pc := update st.pc i (.mark page order), held := st.held.erase ⟨page, order⟩ }
    else none
  | .run i =>
    (st.pmm.advance (st.pc i)).map fun (s, pc, r) =>
      ⟨s, update st.pc i pc, r.toList ++ st.held⟩

def Next (e : CpuEvent ι) (st' : Cpus ι) : Prop := st.step e = some st'

def Alone (i : ι) : Prop := ∀ j, j ≠ i → st.pc j = .idle

/-- A CPU enters while the others are outside, and frees a block handed out at that order. -/
def Serial : CpuEvent ι → Prop
  | .call i (.pmmAllocPages _) => st.Alone i
  | .call i (.pmmFreePages page order) => st.Alone i ∧ ⟨page, order⟩ ∈ st.held
  | .run _ => True

/-- No page is in two blocks, handed out or free. -/
def Separate : Prop :=
  st.held.Pairwise (fun b c => Disjoint b.pages c.pages) ∧
    ∀ b ∈ st.held, ∀ o < maxOrder, ∀ p, OnList st.pmm o p → Disjoint b.pages (Block.mk p o).pages

/-- At most one CPU is inside, at the place given. -/
inductive Busy (st : Cpus ι) : Pc → Prop where
  | nobody : (∀ i, st.pc i = .idle) → Busy st .idle
  | one (i : ι) : st.Alone i → Busy st (st.pc i)

def Sound : Prop :=
  st.held.Nodup ∧ ∃ free pc, st.Busy pc ∧ Inside st.pmm free {b | b ∈ st.held} pc

end

omit [DecidableEq ι] in
theorem Sound.separate (h : st.Sound) : st.Separate := by
  obtain ⟨hn, free, pc, -, hi⟩ := h
  obtain ⟨alloc, hsub, hs⟩ := hi.shape
  constructor
  · apply hn.imp_of_mem
    intro b c hb hc hne
    exact hs.apart.disjoint b (.inr (hsub hb)) c (.inr (hsub hc)) hne
  · intro b hb o ho p hp
    have hp := hs.mem_of_onList ho hp
    apply hs.apart.disjoint b (.inr (hsub hb)) _ (mem_blocks_of_free ho hp)
    rintro rfl
    exact hs.not_free _ (hsub hb) hp

theorem Alone.update (h : st.Alone i) (pc : Pc) (s : Pmm) (held : List Block) :
    Busy ⟨s, Function.update st.pc i pc, held⟩ pc := by
  have ha : Alone ⟨s, Function.update st.pc i pc, held⟩ i := by
    intro j hj
    change Function.update st.pc i pc j = .idle
    rw [update_of_ne hj]
    exact h j hj
  have hb := Busy.one i ha
  change Busy _ (Function.update st.pc i pc i) at hb
  rwa [update_self] at hb

omit [DecidableEq ι] in
theorem Sound.at_rest (h : st.Sound) (hi : st.pc i = .idle) (ha : st.Alone i) :
    ∃ free, st.pmm.Wf free {b | b ∈ st.held} := by
  obtain ⟨-, free, pc, hb, hin⟩ := h
  have hall (j : ι) : st.pc j = .idle := by
    by_cases hj : j = i
    · rw [hj]
      exact hi
    · exact ha j hj
  refine ⟨free, ?_⟩
  cases hb with
  | nobody => exact hin
  | one j =>
    rw [hall j] at hin
    exact hin

omit [DecidableEq ι] in
theorem Sound.alone (h : st.Sound) (hi : st.pc i ≠ .idle) :
    st.Alone i ∧ ∃ free, Inside st.pmm free {b | b ∈ st.held} (st.pc i) := by
  obtain ⟨-, free, pc, hb, hin⟩ := h
  cases hb with
  | nobody hall => exact absurd (hall i) hi
  | one j hj =>
    obtain rfl : i = j := by
      by_contra hne
      exact hi (hj i hne)
    exact ⟨hj, free, hin⟩

theorem Sound.step (h : st.Sound) {e : CpuEvent ι} (hok : st.Serial e)
    (he : st.step e = some st') : st'.Sound := by
  have hn := h.1
  cases e with
  | call i c =>
    cases c with
    | pmmAllocPages order =>
      simp only [Cpus.step] at he
      split_ifs at he with hi
      cases he
      obtain ⟨free, hw⟩ := h.at_rest hi hok
      exact ⟨hn, free, _, hok.update _ _ _, hw, le_rfl⟩
    | pmmFreePages page order =>
      simp only [Cpus.step] at he
      split_ifs at he with hi
      cases he
      obtain ⟨ha, hmem⟩ := hok
      obtain ⟨free, hw⟩ := h.at_rest hi ha
      refine ⟨hn.erase _, free, _, ha.update _ _ _, ?_, fun hm => (hn.mem_erase_iff.mp hm).1 rfl⟩
      have hset : insert ⟨page, order⟩ {b | b ∈ st.held.erase ⟨page, order⟩} =
          {b | b ∈ st.held} := by
        ext b
        by_cases hb : b = ⟨page, order⟩
        · simp [hb, hmem]
        · simp [hb]
      rw [hset]
      exact hw
  | run i =>
    obtain ⟨⟨s, pc, r⟩, ha, rfl⟩ := Option.map_eq_some_iff.mp he
    have hi : st.pc i ≠ .idle := by
      intro hi
      rw [hi] at ha
      cases ha
    obtain ⟨halone, free, hin⟩ := h.alone hi
    rcases hin.advance ha with ⟨rfl, free', hin'⟩ | ⟨b, free', rfl, hfresh, hin'⟩
    · exact ⟨hn, free', pc, halone.update _ _ _, hin'⟩
    · refine ⟨List.nodup_cons.mpr ⟨hfresh, hn⟩, free', pc, halone.update _ _ _, ?_⟩
      have hset : {c | c ∈ b :: st.held} = insert b {c | c ∈ st.held} := by
        ext c
        simp
      exact hset ▸ hin'

/-- While calls do not overlap and only blocks handed out are freed, at their order, the blocks
handed out stay apart from each other and from the free lists. -/
theorem reaches_separate {free : ℕ → List ℕ} (hw : st.pmm.Wf free {b | b ∈ st.held})
    (hn : st.held.Nodup) (hidle : ∀ i, st.pc i = .idle) (hr : Run.Reaches Next Serial st st') :
    st'.Separate := by
  have hsound : st'.Sound :=
    hr.invariant (fun _ _ _ hs hok he => hs.step hok he) ⟨hn, free, _, .nobody hidle, hw⟩
  exact hsound.separate

/-- Two CPUs outside, one free block of two pages. -/
def twoCpus : Cpus Bool := ⟨Owned.twoPages.pmm, fun _ => .idle, []⟩

theorem twoCpus_wf : twoCpus.pmm.Wf Owned.twoPagesFree {b | b ∈ twoCpus.held} := by
  have h := Owned.twoPages_wf
  have hset : {b | b ∈ twoCpus.held} = Owned.twoPages.alloc := by
    ext b
    simp [twoCpus, Owned.twoPages]
  rw [hset]
  exact h

instance (st : Cpus Bool) (i : Bool) : Decidable (st.Alone i) :=
  inferInstanceAs (Decidable (∀ j, j ≠ i → st.pc j = .idle))

instance (st : Cpus Bool) : (e : CpuEvent Bool) → Decidable (st.Serial e)
  | .call _ (.pmmAllocPages _) => inferInstanceAs (Decidable (st.Alone _))
  | .call _ (.pmmFreePages _ _) => inferInstanceAs (Decidable (st.Alone _ ∧ _ ∈ st.held))
  | .run _ => instDecidableTrue

/-- One CPU takes the lower page, then the other the upper one, then the first begins to free its
page. -/
def oneByOne : List (CpuEvent Bool) :=
  [.call false (.pmmAllocPages 0), .run false, .run false, .run false, .run false, .run false,
    .run false, .call true (.pmmAllocPages 0), .run true, .run true, .run true, .run true,
    .call false (.pmmFreePages 0 0), .run false, .run false]

theorem reaches_separate_oneByOne :
    ∃ st', Run.Reaches Next Serial twoCpus st' ∧ st'.held = [⟨1, 0⟩] ∧
      st'.pc false = .add 0 0 ∧ st'.Separate := by
  obtain ⟨st', hst', hheld, hpc⟩ : ∃ st' ∈ oneByOne.foldlM
      (fun (st : Cpus Bool) e => if st.Serial e then st.step e else none) twoCpus,
      st'.held = [⟨1, 0⟩] ∧ st'.pc false = .add 0 0 := by
    decide +kernel
  have hr : Run.Reaches Next Serial twoCpus st' := Run.reaches_of_guarded hst'
  exact ⟨st', hr, hheld, hpc, reaches_separate twoCpus_wf List.nodup_nil (fun _ => rfl) hr⟩

/-- Both CPUs read the same head first. -/
def sameHead : List (CpuEvent Bool) :=
  [.call false (.pmmAllocPages 1), .call true (.pmmAllocPages 1), .run false, .run false,
    .run true, .run true, .run false, .run true, .run false, .run true]

/-- The block is returned to both. -/
theorem sameHead_not_separate :
    ∃ st', sameHead.foldlM step twoCpus = some st' ∧ st'.held = [⟨0, 1⟩, ⟨0, 1⟩] ∧
      ¬ st'.Separate := by
  obtain ⟨st', hst', he⟩ : ∃ st' ∈ sameHead.foldlM step twoCpus, st'.held = [⟨0, 1⟩, ⟨0, 1⟩] := by
    decide +kernel
  refine ⟨st', hst', he, fun hsep => ?_⟩
  have hpair := hsep.1
  rw [he, List.pairwise_pair] at hpair
  exact disjoint_left.mp hpair (Block.head_mem _) (Block.head_mem _)

end Cpus
end Pmm
end Doppio
