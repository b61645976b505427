import Doppio.Mm.Kmalloc
import Doppio.Mmu.CowRuns

/-! Runs of `kmalloc`, `kfree` and `krealloc` on any CPUs. -/
namespace Doppio
open Function
open Buddy Stacks Option Finset

/-- The heap, and the sizes requested for the blocks callers hold. -/
structure Heap where
  kmem : KmemHeap
  live : ℕ → Option ℕ

inductive HeapCall where
  | kmalloc (c : ℕ) (size : BitVec 64)
  | kfree (c : ℕ) (ptr : ℕ)
  | krealloc (c : ℕ) (ptr : Option ℕ) (size : BitVec 64)

/-- A caller, a slot of a CPU's magazine, or of a depot's. -/
inductive Holder where
  | caller
  | magazine (c : ℕ) (k : KmemClass) (n : ℕ)
  | depot (k : KmemClass) (mag n : ℕ)

namespace Heap
open KmemHeap Pmm

/-- The blocks that callers hold after a request has returned `ptr`. -/
def give (live : ℕ → Option ℕ) (ptr : Option ℕ) (size : BitVec 64) : ℕ → Option ℕ :=
  match ptr with
  | none => live
  | some p => update live p (some size.toNat)

/-- The same after `krealloc` of `p`: null for a size other than zero leaves the old block. -/
def regive (live : ℕ → Option ℕ) (p : ℕ) (ptr : Option ℕ) (size : BitVec 64) : ℕ → Option ℕ :=
  if size ≠ 0 ∧ ptr = none then live else give (update live p none) ptr size

def step (st : Heap) : HeapCall → Option Heap
  | .kmalloc c size =>
    (st.kmem.kmalloc c size).map fun (s, r) => ⟨s, give st.live r size⟩
  | .kfree c ptr =>
    (st.kmem.kfree c (some ptr)).map fun s => ⟨s, update st.live ptr none⟩
  | .krealloc c none size =>
    (st.kmem.krealloc c none size).map fun (s, r) => ⟨s, give st.live r size⟩
  | .krealloc c (some ptr) size =>
    (st.kmem.krealloc c (some ptr) size).map fun (s, r) => ⟨s, regive st.live ptr r size⟩

/-- One call in which no page allocation fails. -/
def Next (st : Heap) (c : HeapCall) (st' : Heap) : Prop :=
  st.step c = some st' ∧ st'.kmem.pmm.outOfMemory = st.kmem.pmm.outOfMemory

/-- Requests of up to 4 MiB; the caller frees or resizes only blocks that it holds. -/
def Legal (st : Heap) : HeapCall → Prop
  | .kmalloc _ size => 0 < size.toNat ∧ size.toNat ≤ 2 ^ 22
  | .kfree _ ptr => st.live ptr ≠ none
  | .krealloc _ ptr _ => ∀ p, ptr = some p → st.live p ≠ none

/-- The size rounded up to pages does not wrap. -/
def Fits : HeapCall → Prop
  | .krealloc _ _ size => size.toNat ≤ 2 ^ 64 - 4096
  | _ => True

def InSlot (s : KmemHeap) (a n x : ℕ) : Prop :=
  (n : ℤ) < (s.magazine a).top ∧ (s.magazine a).slots n = some x

def InDepot (s : KmemHeap) (k : KmemClass) (a : ℕ) : Prop :=
  (∃ l, LinkedQueue.Linked s.next (s.depots k).fullMags l ∧ a ∈ l) ∨
    ∃ l, LinkedQueue.Linked s.next (s.depots k).emptyMags l ∧ a ∈ l

def HeldBy (st : Heap) (x : ℕ) : Holder → Prop
  | .caller => st.live x ≠ none
  | .magazine c k n => ∃ a, st.kmem.magazines c k = some a ∧ InSlot st.kmem a n x
  | .depot k a n => InDepot st.kmem k a ∧ InSlot st.kmem a n x

structure Consistent (st : Heap) : Prop where
  enough : ∀ p n, st.live p = some n → n ≤ st.kmem.oldSize (p / pageSize) ∧
    ∀ i < st.kmem.oldSize (p / pageSize), ¬ st.kmem.pmm.OnFreeList ((p + i) / pageSize)
  apart : ∀ p q, st.live p ≠ none → st.live q ≠ none → p ≠ q →
    ∀ i < st.kmem.oldSize (p / pageSize), ∀ j < st.kmem.oldSize (q / pageSize), p + i ≠ q + j
  one_holder : ∀ x ∈ st.kmem.carved, ∃! h, st.HeldBy x h
  top_loaded : ∀ c k a, st.kmem.magazines c k = some a →
    0 ≤ (st.kmem.magazine a).top ∧ (st.kmem.magazine a).top ≤ kmemMagCapacity
  top_depot : ∀ k a, InDepot st.kmem k a →
    0 ≤ (st.kmem.magazine a).top ∧ (st.kmem.magazine a).top ≤ kmemMagCapacity
  counts : ∀ k, ∃ fulls empties, LinkedQueue.Linked st.kmem.next (st.kmem.depots k).fullMags fulls ∧
    LinkedQueue.Linked st.kmem.next (st.kmem.depots k).emptyMags empties ∧
    (st.kmem.depots k).fullCount.toNat = fulls.length ∧
    (st.kmem.depots k).emptyCount.toNat = empties.length

variable {st st' : Heap} {s : KmemHeap} {tbl : Loaded} {live : ℕ → Option ℕ} {g : HeapLayout}

variable {k : KmemClass}

theorem inSlot_iff {kind : ℕ → Option KmemClass} {xs : List ℕ} {a n x : ℕ}
    (h : HoldsObjects kind k (s.magazine a) xs) : InSlot s a n x ↔ xs[n]? = some x := by
  have htop := h.top
  constructor
  · rintro ⟨hlt, hx⟩
    obtain ⟨y, hy⟩ : ∃ y, xs[n]? = some y := ⟨_, List.getElem?_eq_getElem (by omega)⟩
    rw [h.slots n y hy] at hx
    rw [hy, hx]
  · intro hx
    refine ⟨?_, h.slots n x hx⟩
    have hn := (List.getElem?_eq_some_iff.mp hx).1
    omega

theorem inDepot_iff (h : HeapInv s tbl live g) {a : ℕ} :
    InDepot s k a ↔ a ∈ g.shelf (.full k) ∨ a ∈ g.shelf (.empty k) := by
  have hlist (i : Shelf) :
      (∃ l, LinkedQueue.Linked s.next (s.head i) l ∧ a ∈ l) ↔ a ∈ g.shelf i := by
    have hi := h.racked.shelves.linked i
    constructor
    · rintro ⟨l, hl, ha⟩
      rw [hi.mem_iff, ← hl.mem_iff]
      exact ha
    · exact fun ha => ⟨_, hi, ha⟩
  exact or_congr (hlist (.full k)) (hlist (.empty k))

theorem length_lt (h : HeapInv s tbl live g) (htotal : s.pmm.totalPages ≤ 2 ^ 27) (i : Shelf) :
    (g.shelf i).length < 2 ^ 32 := by
  have hsub : (g.shelf i).toFinset ⊆ (range s.pmm.totalPages ×ˢ
      range magazinesPerPage).image fun q => magazineAt (q.1 * pageSize) q.2 := by
    intro a ha
    obtain ⟨p, j, hp, hj, rfl⟩ := h.shelf_cell i a (List.mem_toFinset.mp ha)
    have hfit := h.stocked.wf.shape.apart.fits ⟨p, 0⟩
      (.inr (h.stocked.use_alloc _ (by rw [hp]; simp)))
    have hlt : p < s.pmm.totalPages := by
      simp only [pow_zero] at hfit
      omega
    refine mem_image.mpr ⟨(p, j), ?_, rfl⟩
    rw [mem_product, mem_range, mem_range]
    exact ⟨hlt, hj⟩
  calc (g.shelf i).length = (g.shelf i).toFinset.card :=
        (List.toFinset_card_of_nodup (h.racked.shelves.nodup i)).symm
    _ ≤ (range s.pmm.totalPages ×ˢ range magazinesPerPage).card :=
        (card_le_card hsub).trans card_image_le
    _ = s.pmm.totalPages * 28 := by
        rw [card_product, card_range]
        rfl
    _ < 2 ^ 32 := by omega

section
variable (h : HeapInv st.kmem st.kmem.magazines st.live g)
include h

theorem exists_holder {x a n : ℕ} (hloc : g.loc x = some (a, n)) :
    (∃ c k, st.kmem.magazines c k = some a ∧ st.HeldBy x (.magazine c k n)) ∨
      ∃ k, a ∈ g.shelf (.full k) ∧ st.HeldBy x (.depot k a n) := by
  have hget : (g.contents a)[n]? = some x := (h.stacked a n x).mpr hloc
  have hne : g.contents a ≠ [] := by
    intro hnil
    simp [hnil] at hget
  rcases h.racked.only a hne with ⟨c, k, hc⟩ | ⟨k, hk⟩
  · exact .inl ⟨c, k, hc, a, hc, (inSlot_iff (h.racked.loaded c k a hc)).mpr hget⟩
  · exact .inr ⟨k, hk, (inDepot_iff h).mpr (.inl hk),
      (inSlot_iff (h.racked.full k a hk).1).mpr hget⟩

theorem loc_of_magazine {x c n : ℕ} (hx : st.HeldBy x (.magazine c k n)) :
    ∃ a, st.kmem.magazines c k = some a ∧ g.loc x = some (a, n) := by
  obtain ⟨a, ha, hslot⟩ := hx
  rw [inSlot_iff (h.racked.loaded c k a ha), h.stacked a n x] at hslot
  exact ⟨a, ha, hslot⟩

theorem loc_of_depot {x a n : ℕ}
    (hx : st.HeldBy x (.depot k a n)) : a ∈ g.shelf (.full k) ∧ g.loc x = some (a, n) := by
  obtain ⟨hin, hslot⟩ := hx
  rcases (inDepot_iff h).mp hin with ha | ha
  · rw [inSlot_iff (h.racked.full k a ha).1, h.stacked a n x] at hslot
    exact ⟨ha, hslot⟩
  · have hlt := hslot.1
    rw [h.racked.empty k a ha] at hlt
    omega

theorem existsUnique_holder {x : ℕ} (hx : x ∈ st.kmem.carved) : ∃! holder, st.HeldBy x holder := by
  have hkind := (h.stocked.carved x).mp hx
  have hlive := h.loc_eq_none x hkind
  cases hloc : g.loc x with
  | none =>
    refine ⟨.caller, hlive.mp hloc, fun holder hh => ?_⟩
    cases holder with
    | caller => rfl
    | magazine c k n =>
      obtain ⟨a, -, hl⟩ := loc_of_magazine h hh
      simp [hloc] at hl
    | depot k a n =>
      have hl := (loc_of_depot h hh).2
      simp [hloc] at hl
  | some q =>
    obtain ⟨a, n⟩ := q
    have hnot : ¬ st.HeldBy x .caller := by
      intro hc
      simp [hlive.mpr hc] at hloc
    rcases exists_holder h hloc with ⟨c, k, hc, hheld⟩ | ⟨k, hk, hheld⟩
    · refine ⟨_, hheld, fun holder hh => ?_⟩
      cases holder with
      | caller => exact absurd hh hnot
      | magazine c' k' n' =>
        obtain ⟨a', ha', hl⟩ := loc_of_magazine h hh
        rw [hloc, some.injEq] at hl
        obtain ⟨rfl, rfl⟩ := hl
        obtain ⟨rfl, rfl⟩ := h.racked.loaded_inj c' k' c k a ha' hc
        rfl
      | depot k' a' n' =>
        obtain ⟨ha', hl⟩ := loc_of_depot h hh
        rw [hloc, some.injEq] at hl
        obtain ⟨rfl, rfl⟩ := hl
        exact absurd ha' (h.racked.not_mem c k a hc _)
    · refine ⟨_, hheld, fun holder hh => ?_⟩
      cases holder with
      | caller => exact absurd hh hnot
      | magazine c' k' n' =>
        obtain ⟨a', ha', hl⟩ := loc_of_magazine h hh
        rw [hloc, some.injEq] at hl
        obtain ⟨rfl, rfl⟩ := hl
        exact absurd hk (h.racked.not_mem c' k' a ha' _)
      | depot k' a' n' =>
        obtain ⟨ha', hl⟩ := loc_of_depot h hh
        rw [hloc, some.injEq] at hl
        obtain ⟨rfl, rfl⟩ := hl
        obtain rfl := Shelf.full.inj (h.racked.shelves.unique _ _ a ha' hk)
        rfl

theorem consistent_of_inv (htotal : st.kmem.pmm.totalPages ≤ 2 ^ 27) : Consistent st := by
  have htop {k : KmemClass} {m : Magazine} {xs : List ℕ} (hh : HoldsObjects g.kind k m xs) :
      0 ≤ m.top ∧ m.top ≤ kmemMagCapacity := by
    have h1 := hh.top
    have h2 := hh.length_le
    omega
  have hcount (i : Shelf) (hi : i ≠ .spare) : (st.kmem.count i).toNat = (g.shelf i).length := by
    rw [h.racked.count_eq i hi, BitVec.toNat_ofNat, Nat.mod_eq_of_lt (length_lt h htotal i)]
  refine ⟨fun p n hp => ?_, fun p q hp hq hpq i hi j hj => h.disjoint hp hq hpq hi hj,
    fun x hx => existsUnique_holder h hx, fun c k a ha => htop (h.racked.loaded c k a ha),
    fun k a ha => ?_, fun k => ?_⟩
  · obtain ⟨hn, b, hb, hmem⟩ := h.extent hp
    refine ⟨hn, fun i hi hfree => ?_⟩
    rw [h.stocked.wf.onFreeList_iff] at hfree
    exact h.stocked.wf.not_mem_of_free hfree (h.stocked.use_alloc b hb) (hmem i hi)
  · rcases (inDepot_iff h).mp ha with ha | ha
    · exact htop (h.racked.full k a ha).1
    · rw [h.racked.empty k a ha]
      decide
  · exact ⟨_, _, h.racked.shelves.linked (.full k), h.racked.shelves.linked (.empty k),
      hcount (.full k) (by simp), hcount (.empty k) (by simp)⟩

end

theorem sound_kmemInit {free : ℕ → List ℕ} {alloc : Set Block} (hwf : s.pmm.Wf free alloc)
    (hfree : s.freeMags = none) (hmags : ∀ c k, s.magazines c k = none) (hcarved : s.carved = []) :
    HeapSound s.kmemInit s.kmemInit.magazines fun _ => none := by
  have hnone (c : ℕ) (k : KmemClass) (a : ℕ) : s.kmemInit.magazines c k ≠ some a := by
    change s.magazines c k ≠ some a
    rw [hmags]
    simp
  refine ⟨⟨fun _ => none, fun _ => none, free, alloc, fun _ => [], fun _ => [], fun _ => none⟩,
    ⟨?_, ?_, ?_, ?_, ?_, ?_, ?_, ?_⟩, ⟨hwf, ?_, ?_, ?_, ?_, ?_, ?_, ?_⟩, ?_, ?_, ?_, ?_, ?_⟩
  · refine ⟨fun i => ?_, fun _ => List.nodup_nil, nofun⟩
    cases i with
    | spare => exact hfree
    | full k => rfl
    | empty k => rfl
  · intro i hi
    cases i with
    | spare => exact absurd rfl hi
    | full k => rfl
    | empty k => rfl
  · exact fun c k a ha => absurd ha (hnone c k a)
  · exact fun c k _ _ a ha => absurd ha (hnone c k a)
  · exact fun c k a ha => absurd ha (hnone c k a)
  · exact nofun
  · exact nofun
  · exact fun a ha => absurd rfl ha
  · exact fun b hb => absurd rfl hb
  · exact fun k => rfl
  · exact nofun
  · exact nofun
  · exact nofun
  · exact fun k hk => absurd rfl hk
  · intro x
    change x ∈ s.carved ↔ _
    simp [hcarved]
  · intro a n x
    simp
  · exact nofun
  · exact fun c k a ha => absurd ha (hnone c k a)
  · exact fun x hx => absurd rfl hx
  · exact nofun

/-- The heap is sound, and memory is as large as at the start. -/
structure Good (st : Heap) : Prop where
  sound : HeapSound st.kmem st.kmem.magazines st.live
  totalPages : st.kmem.pmm.totalPages ≤ 2 ^ 27

theorem Good.kmalloc (h : Good st) (c : ℕ) (size : BitVec 64) (hsize : size.toNat + 4095 < 2 ^ 64) :
    ∃ s r, st.kmem.kmalloc c size = some (s, r) ∧ Good ⟨s, give st.live r size⟩ ∧
      (∀ p ∈ r, st.live p = none) ∧
      (r = none → size = 0 ∨ 2 ^ 22 < size.toNat ∨ st.kmem.failures < s.failures) := by
  obtain ⟨s, r, he, hkept, hnone, hsome⟩ := kmalloc_spec h.sound c hsize
  have htotal : s.pmm.totalPages ≤ 2 ^ 27 := hkept.totalPages.trans_le h.totalPages
  cases r with
  | none => exact ⟨s, none, he, ⟨(hnone rfl).1, htotal⟩, nofun, fun _ => (hnone rfl).2⟩
  | some x => exact ⟨s, some x, he, ⟨(hsome x rfl).2, htotal⟩, fun y hy => (hsome y hy).1, nofun⟩

/-- There may be no page left for a magazine. -/
def Starved (st : Heap) : HeapCall → Prop
  | .kmalloc _ _ => False
  | .kfree _ _ => st.kmem.Exhausted
  | .krealloc c _ size => st.kmem.Exhausted ∨
      ∃ s r, st.kmem.kmalloc c size = some (s, r) ∧ s.Exhausted

theorem Good.step (h : Good st) {call : HeapCall} (hl : Legal st call) (hf : Fits call) :
    (st.step call = none ∧ Starved st call) ∨ ∃ st', st.step call = some st' ∧
      (st'.kmem.failures = st.kmem.failures → Good st') := by
  have hwrap {size : BitVec 64} (hs : size.toNat ≤ 2 ^ 64 - 4096) : size.toNat + 4095 < 2 ^ 64 := by
    omega
  cases call with
  | kmalloc c size =>
    obtain ⟨s, r, he, hgood, -⟩ := h.kmalloc c size (by have := hl.2; omega)
    exact .inr ⟨_, by simp only [Heap.step, he, map_some], fun _ => hgood⟩
  | kfree c ptr =>
    rcases kfree_spec h.sound c hl with ⟨he, hex⟩ | ⟨s, he, -, htotal, hsound, -⟩
    · exact .inl ⟨by simp only [Heap.step, he, map_none], hex⟩
    · exact .inr ⟨⟨s, update st.live ptr none⟩, by simp only [Heap.step, he, map_some],
        fun hq => ⟨hsound hq, htotal.trans_le h.totalPages⟩⟩
  | krealloc c ptr size =>
    cases ptr with
    | none =>
      obtain ⟨s, r, he, hgood, -⟩ := h.kmalloc c size (hwrap hf)
      have he' : st.kmem.krealloc c none size = some (s, r) := he
      exact .inr ⟨_, by simp only [Heap.step, he', map_some], fun _ => hgood⟩
    | some p =>
      by_cases hzero : size = 0
      · have hfree : st.kmem.krealloc c (some p) size =
            (st.kmem.kfree c (some p)).map fun s => (s, none) := if_pos hzero
        rcases kfree_spec h.sound c (hl p rfl) with ⟨he, hex⟩ | ⟨s, he, -, htotal, hsound, -⟩
        · exact .inl ⟨by simp only [Heap.step, hfree, he, map_none], .inl hex⟩
        · refine .inr ⟨⟨s, regive st.live p none size⟩,
            by simp only [Heap.step, hfree, he, map_some], fun hq => ⟨?_, ?_⟩⟩
          · unfold regive
            rw [if_neg (fun hc => hc.1 hzero)]
            exact hsound hq
          · exact htotal.trans_le h.totalPages
      · rcases krealloc_spec h.sound c (hl p rfl) hzero (hwrap hf) with
          ⟨he, hex⟩ | ⟨s, r, he, -, htotal, hnone, hsome⟩
        · exact .inl ⟨by simp only [Heap.step, he, map_none], .inr hex⟩
        · refine .inr ⟨⟨s, regive st.live p r size⟩, by simp only [Heap.step, he, map_some],
            fun hq => ⟨?_, ?_⟩⟩
          · unfold regive
            cases r with
            | none =>
              rw [if_pos ⟨hzero, rfl⟩]
              exact (hnone rfl hq).1
            | some y =>
              rw [if_neg (fun hc => absurd hc.2 (by simp))]
              exact (hsome y rfl).2.1 hq
          · exact htotal.trans_le h.totalPages

/-- From `kmem_init` on, while `krealloc` sizes do not wrap and no allocation fails, the heap is in
order. From every such state `kmalloc` returns a new block unless an allocation fails, `krealloc`
keeps the contents, and calls return while there are free pages. -/
theorem reaches_consistent {free : ℕ → List ℕ} {alloc : Set Block} (hwf : s.pmm.Wf free alloc)
    (htotal : s.pmm.totalPages ≤ 2 ^ 27) (hfree : s.freeMags = none)
    (hmags : ∀ c k, s.magazines c k = none) (hcarved : s.carved = [])
    (hr : Run.Reaches Next (fun st c => Legal st c ∧ Fits c) ⟨s.kmemInit, fun _ => none⟩ st') :
    Consistent st' ∧
    (∀ c size, Legal st' (.kmalloc c size) → ∃ s' r, st'.kmem.kmalloc c size = some (s', r) ∧
      (∀ p ∈ r, st'.live p = none) ∧ (s'.pmm.outOfMemory = st'.kmem.pmm.outOfMemory → r ≠ none)) ∧
    (∀ c p size s' q, Legal st' (.krealloc c (some p) size) → Fits (.krealloc c (some p) size) →
      st'.kmem.krealloc c (some p) size = some (s', some q) → (q = p ∨ st'.live q = none) ∧
      ∀ i < min (st'.kmem.oldSize (p / pageSize)) size.toNat,
        s'.byte (q + i) = st'.kmem.byte (p + i)) ∧
    ∀ call, Legal st' call → Fits call → ¬ Starved st' call → ∃ st'', st'.step call = some st'' := by
  have hgood : Good st' := by
    apply hr.invariant
    · rintro st call st'' hst ⟨hl, hf⟩ ⟨hstep, hquiet⟩
      rcases hst.step hl hf with ⟨he, -⟩ | ⟨st1, he, hst1⟩
      · simp [he] at hstep
      · rw [he] at hstep
        cases hstep
        exact hst1 (congrArg List.length hquiet)
    · exact ⟨sound_kmemInit hwf hfree hmags hcarved, htotal⟩
  refine ⟨?_, fun c size hl => ?_, fun c p size s' q hl hf he => ?_, fun call hl hf hns => ?_⟩
  · obtain ⟨g, hinv⟩ := hgood.sound
    exact consistent_of_inv hinv hgood.totalPages
  · have hl' : 0 < size.toNat ∧ size.toNat ≤ 2 ^ 22 := hl
    obtain ⟨s', r, he, -, hnew, hwhy⟩ := hgood.kmalloc c size (by omega)
    refine ⟨s', r, he, hnew, fun hquiet hr => ?_⟩
    rcases hwhy hr with hz | hbig | hlt
    · rw [hz] at hl'
      cases hl'.1
    · omega
    · exact absurd (congrArg List.length hquiet) hlt.ne'
  · have hzero : size ≠ 0 := by
      rintro rfl
      simp [KmemHeap.krealloc] at he
    have hf' : size.toNat ≤ 2 ^ 64 - 4096 := hf
    rcases krealloc_spec hgood.sound c (hl p rfl) hzero (by omega) with
      ⟨hnone, -⟩ | ⟨s1, r, he1, -, -, -, hsome⟩
    · simp [hnone] at he
    · rw [he1] at he
      cases he
      exact (hsome q rfl).imp_right And.right
  · rcases hgood.step hl hf with ⟨-, hs⟩ | ⟨st'', he, -⟩
    · exact absurd hs hns
    · exact ⟨st'', he⟩

def bareKmem : KmemHeap where
  pmm := Spaces.pool 1
  objSize _ := 0
  freeCount _ := 0
  magazine _ := ⟨none, fun _ => none, 0⟩
  freeMags := none
  depots _ := ⟨none, none, 0, 0, 0, 0, 0⟩
  magazines _ _ := none
  byte _ := 0
  carved := []

/-- Two pages are resized to the largest size: the pages wrap around to none, and the block has one.
-/
theorem krealloc_wraps :
    bareKmem.pmm.Wf (Spaces.poolFree 1) {⟨0, 0⟩} ∧ bareKmem.pmm.totalPages ≤ 2 ^ 27 ∧
    bareKmem.freeMags = none ∧ (∀ c k, bareKmem.magazines c k = none) ∧ bareKmem.carved = [] ∧
    ∃ st', Run.Reaches Next Legal ⟨bareKmem.kmemInit, fun _ => none⟩ st' ∧
      ∃ p, st'.live p = some (2 ^ 64 - 1) ∧ st'.kmem.oldSize (p / pageSize) = pageSize := by
  obtain ⟨⟨s1, r1⟩, h1, rfl, hq1, ⟨s2, r2⟩, h2, rfl, hsize, hq2⟩ :
      ∃ r ∈ bareKmem.kmemInit.kmalloc 0 8192, r.2 = some 4194304 ∧ r.1.pmm.outOfMemory = [] ∧
      ∃ r' ∈ r.1.krealloc 0 r.2 0xffffffffffffffff, r'.2 = some 4202496 ∧
        r'.1.oldSize 1026 = pageSize ∧ r'.1.pmm.outOfMemory = [] := by decide +kernel
  let live1 : ℕ → Option ℕ := update (fun _ => none) 4194304 (some 8192)
  have hn1 : Next ⟨bareKmem.kmemInit, fun _ => none⟩ (.kmalloc 0 8192) ⟨s1, live1⟩ := by
    refine ⟨by simp only [step, mem_def.mp h1]; rfl, hq1⟩
  have hn2 : Next ⟨s1, live1⟩ (.krealloc 0 (some 4194304) 0xffffffffffffffff)
      ⟨s2, regive live1 4194304 (some 4202496) 0xffffffffffffffff⟩ := by
    refine ⟨by simp only [step, mem_def.mp h2, map_some], hq2.trans hq1.symm⟩
  have hl2 : Legal ⟨s1, live1⟩ (.krealloc 0 (some 4194304) 0xffffffffffffffff) := by
    intro p hp
    cases hp
    simp [live1]
  have hl1 : Legal ⟨bareKmem.kmemInit, fun _ => none⟩ (.kmalloc 0 8192) :=
    ⟨by decide, by decide⟩
  refine ⟨Spaces.pool_wf (by decide), by decide, rfl, fun _ _ => rfl, rfl, _,
    (Run.Reaches.single _ hl1 hn1).trans (Run.Reaches.single _ hl2 hn2), 4202496, ?_, hsize⟩
  simp [regive, give]

theorem reaches_consistent_freed :
    ∃ st', Run.Reaches Next (fun st c => Legal st c ∧ Fits c) ⟨bareKmem.kmemInit, fun _ => none⟩ st' ∧
      4200320 ∈ st'.kmem.carved ∧ st'.live 4200320 = none ∧ Consistent st' ∧
      ∃! holder, st'.HeldBy 4200320 holder := by
  obtain ⟨⟨s1, r1⟩, h1, rfl, hq1, s2, h2, hmem, hq2⟩ :
      ∃ r ∈ bareKmem.kmemInit.kmalloc 0 100, r.2 = some 4200320 ∧ r.1.pmm.outOfMemory = [] ∧
      ∃ s ∈ r.1.kfree 1 r.2, 4200320 ∈ s.carved ∧ s.pmm.outOfMemory = [] := by decide +kernel
  let live1 : ℕ → Option ℕ := update (fun _ => none) 4200320 (some 100)
  have hn1 : Next ⟨bareKmem.kmemInit, fun _ => none⟩ (.kmalloc 0 100) ⟨s1, live1⟩ := by
    refine ⟨by simp only [step, mem_def.mp h1]; rfl, hq1⟩
  have hn2 : Next ⟨s1, live1⟩ (.kfree 1 4200320) ⟨s2, update live1 4200320 none⟩ := by
    refine ⟨by simp only [step, mem_def.mp h2, map_some], hq2.trans hq1.symm⟩
  have hl1 : Legal ⟨bareKmem.kmemInit, fun _ => none⟩ (.kmalloc 0 100) := ⟨by decide, by decide⟩
  have hl2 : Legal ⟨s1, live1⟩ (.kfree 1 4200320) := by simp [Legal, live1]
  have hr : Run.Reaches Next (fun st c => Legal st c ∧ Fits c) ⟨bareKmem.kmemInit, fun _ => none⟩
      ⟨s2, update live1 4200320 none⟩ :=
    (Run.Reaches.single (.kmalloc 0 100) ⟨hl1, trivial⟩ hn1).trans
      (Run.Reaches.single (.kfree 1 4200320) ⟨hl2, trivial⟩ hn2)
  have hcons := (reaches_consistent (Spaces.pool_wf (by decide)) (by decide) rfl (fun _ _ => rfl)
    rfl hr).1
  exact ⟨_, hr, hmem, by simp, hcons, hcons.one_holder _ hmem⟩

end Heap
end Doppio
