import Doppio.Library.Custody
import Doppio.Mm.KmemPlaces

/-! Threads in `kmalloc` and `kfree` that are preempted and moved: what holds of the objects and the
magazines, if the calls on one CPU do not overlap. -/
namespace Doppio
open Function Option
open Stacks KmemHeap

structure Working where
  op : HeapOp
  idx : KmemClass
  pc : HeapPc
  deriving DecidableEq

def Working.object (w : Working) : Option ℕ := w.pc.object w.op

/-- The heap, the objects returned and not yet freed, as often as returned, the threads' calls and
CPUs. -/
structure KmemThreads (ι : Type*) where
  kmem : KmemHeap
  held : List ℕ
  work : ι → Option Working
  cpu : ι → ℕ

inductive HeapEvent (ι : Type*) where
  | call (t : ι) (op : HeapOp)
  | run (t : ι)
  | migrate (t : ι) (c : ℕ)

namespace KmemThreads

variable {ι : Type*} [DecidableEq ι]

section
variable (st : KmemThreads ι)

def enterKfree (t : ι) (ptr page : ℕ) : KmemThreads ι :=
  let s := st.kmem.kasanKfree ptr (st.kmem.objSize page)
  let s := { s with freeCount := update s.freeCount page (s.freeCount page + 1) }
  match kmemGetIndex (s.objSize page) with
  | none => { st with kmem := s, held := st.held.erase ptr }
  | some idx =>
    { st with
      kmem := s
      held := st.held.erase ptr
      work := update st.work t (some ⟨.kfree ptr, idx, .curcpu⟩) }

def settle (t : ι) (w : Working) (s : KmemHeap) : Outcome → KmemThreads ι
  | .goto pc => { st with kmem := s, work := update st.work t (some { w with pc := pc }) }
  | .done ptr =>
    { st with kmem := s, held := ptr.toList ++ st.held, work := update st.work t none }

/-- A thread begins a call for a small size, takes its next step, or moves to another CPU. An object
leaves `held` with the call that frees it. -/
def step : HeapEvent ι → Option (KmemThreads ι)
  | .call t (.kmalloc size) =>
    if st.work t = none ∧ 0 < size ∧ size ≤ kmemMaxDirect then
      match kmemGetIndex size with
      | none => none
      | some idx =>
        some { st with work := update st.work t (some ⟨.kmalloc size, idx, .curcpu⟩) }
    else none
  | .call t (.kfree ptr) =>
    if st.work t = none then
      match st.kmem.pmm.physToPage ptr with
      | none => none
      | some page => if st.kmem.objSize page = 0 then none else some (st.enterKfree t ptr page)
    else none
  | .run t =>
    match st.work t with
    | none => none
    | some w => (st.kmem.advance (st.cpu t) w.op w.idx w.pc).map fun (s, out) => st.settle t w s out
  | .migrate t c => some { st with cpu := update st.cpu t c }

def Next (e : HeapEvent ι) (st' : KmemThreads ι) : Prop := st.step e = some st'

/-- Only held objects are freed; a call begins on a CPU without another call and stays there. -/
def Exclusive : HeapEvent ι → Prop
  | .call t op => (∀ t', t' ≠ t → st.cpu t' = st.cpu t → st.work t' = none) ∧
      ∀ ptr, op = .kfree ptr → ptr ∈ st.held
  | .run _ => True
  | .migrate t _ => st.work t = none

def Supplied (e : HeapEvent ι) : Prop :=
  ∀ st' ∈ st.step e, st'.kmem.pmm.outOfMemory = st.kmem.pmm.outOfMemory

/-- The links lead from the head to the magazine. -/
def OnShelf (s : KmemHeap) (i : Shelf) (a : ℕ) : Prop :=
  ∃ u, s.head i = some u ∧ Relation.ReflTransGen (fun a b => s.next a = some b) u a

/-- A magazine of a CPU, on a list of a depot, or in a call's hand. -/
def Reachable (a : ℕ) : Prop :=
  (∃ c k, st.kmem.magazines c k = some a) ∨ (∃ k, OnShelf st.kmem (.full k) a) ∨
    (∃ k, OnShelf st.kmem (.empty k) a) ∨ ∃ t w, st.work t = some w ∧ w.pc.magazine = some a

/-- A call has listed the CPU's magazine and not yet given it another. -/
def Swapping (c : ℕ) (k : KmemClass) : Prop :=
  ∃ t w, st.work t = some w ∧ w.idx = k ∧ w.pc.swapping = some c

/-- No object is returned twice without being freed or lost, and no magazine is in two places; a
CPU's magazine counts while no swap is under way for it. -/
structure InOrder : Prop where
  once : st.held.Nodup
  not_lost : ∀ x ∈ st.kmem.carved, x ∈ st.held ∨ (∃ t w, st.work t = some w ∧ w.object = some x) ∨
    ∃ a n, st.Reachable a ∧ Heap.InSlot st.kmem a n x
  one_list : ∀ k j a, OnShelf st.kmem (.full k) a → ¬ OnShelf st.kmem (.empty j) a
  loaded : ∀ c k a, st.kmem.magazines c k = some a → ¬ st.Swapping c k →
    ∀ j, ¬ OnShelf st.kmem (.full j) a ∧ ¬ OnShelf st.kmem (.empty j) a

def hand (t : ι) : Option ℕ := (st.work t).bind Working.object

/-- The objects outside the magazines. -/
def outside (live : ℕ → Option ℕ) : Set ℕ := {x | live x ≠ none}

theorem Passed.kept {held : List ℕ} {hand : ι → Option ℕ} {live live' : ℕ → Option ℕ} {t : ι}
    {o' : Option ℕ} (h : Custody.Kept held hand (outside live))
    (hp : Passed live (hand t) o' live') :
    Custody.Kept held (update hand t o') (outside live') := by
  generalize ho : hand t = o at hp
  cases hp with
  | keep =>
    rw [← ho, update_eq_self]
    exact h
  | @gain x hx =>
    have hset : outside (update live x (some 0)) = insert x (outside live) := by
      ext y
      by_cases hy : y = x
      · simp [outside, hy]
      · simp [outside, hy]
    rw [hset]
    exact h.put ho fun hm => hm hx
  | give x =>
    have hset : outside (update live x none) = outside live \ {x} := by
      ext y
      by_cases hy : y = x
      · simp [outside, hy]
      · simp [outside, hy]
    rw [hset]
    exact h.drop ho

/-- Without overlapping calls: `tbl` has for each CPU its magazine or that of the call on it, `live`
the objects outside the magazines. -/
structure Sound (tbl : Loaded) (live : ℕ → Option ℕ) : Prop where
  heap : HeapSound st.kmem tbl live
  kept : Custody.Kept st.held st.hand (outside live)
  place : ∀ t w, st.work t = some w → Place (st.cpu t) w.op (st.kmem.magazines (st.cpu t) w.idx)
    (tbl (st.cpu t) w.idx) (ownTop st.kmem tbl (st.cpu t) w.idx) w.pc
  handles : ∀ t w, st.work t = some w → Handles st.kmem live w.idx w.object
  alone : ∀ t t', st.work t ≠ none → st.work t' ≠ none → st.cpu t = st.cpu t' → t = t'
  rest : ∀ c k, (∀ t w, st.work t = some w → ¬ (c = st.cpu t ∧ k = w.idx)) →
    tbl c k = st.kmem.magazines c k

end

variable {st st' : KmemThreads ι} {tbl : Loaded} {live : ℕ → Option ℕ} {t : ι} {w : Working}

theorem hand_update (work : ι → Option Working) (held : List ℕ) (s : KmemHeap) (cpu : ι → ℕ)
    (w' : Option Working) :
    hand ⟨s, held, update work t w', cpu⟩ =
      update (hand ⟨s, held, work, cpu⟩) t (w'.bind Working.object) := by
  funext t'
  unfold hand
  by_cases ht : t' = t <;> simp [ht]

variable {s' : KmemHeap}

omit [DecidableEq ι] in
theorem Sound.hand_eq_none (_ : Sound st tbl live) (hidle : st.work t = none) : st.hand t = none := by
  simp [hand, hidle]

section
variable (h : Sound st tbl live)
include h

omit [DecidableEq ι] in
theorem Sound.frame {tbl' : Loaded} {live' : ℕ → Option ℕ} {o' : Option ℕ}
    (hw : st.work t = some w)
    (hst : Stepped st.kmem tbl live (st.cpu t) w.idx s' tbl' live')
    (hp : Passed live w.object o' live') {t' : ι} {w' : Working} (hne : t' ≠ t)
    (hw' : st.work t' = some w') :
    Place (st.cpu t') w'.op (s'.magazines (st.cpu t') w'.idx) (tbl' (st.cpu t') w'.idx)
        (ownTop s' tbl' (st.cpu t') w'.idx) w'.pc ∧ Handles s' live' w'.idx w'.object := by
  have hcpu : ¬ (st.cpu t' = st.cpu t ∧ w'.idx = w.idx) := by
    intro hc
    exact hne (h.alone t' t (by simp [hw']) (by simp [hw]) hc.1)
  constructor
  · rw [hst.magazines_eq _ _ hcpu, hst.tbl_eq _ _ hcpu, hst.ownTop_eq hcpu]
    exact h.place t' w' hw'
  · intro x hx
    obtain ⟨hl, hsize⟩ := h.handles t' w' hw' x hx
    refine ⟨?_, (hst.objSize_eq x hl).trans hsize⟩
    generalize ho : w.object = o at hp
    cases hp with
    | keep => exact hl
    | @gain y hy =>
      by_cases hxy : x = y
      · simp [hxy]
      · rwa [update_of_ne hxy]
    | give y =>
      rw [update_of_ne]
      · exact hl
      · rintro rfl
        apply hne
        apply h.kept.one_hand t' t x
        · simp only [hand, hw']
          exact hx
        · simp only [hand, hw]
          exact ho

theorem Sound.run {out : Outcome} (hw : st.work t = some w)
    (he : st.kmem.advance (st.cpu t) w.op w.idx w.pc = some (s', out))
    (hq : s'.pmm.outOfMemory = st.kmem.pmm.outOfMemory) :
    ∃ tbl' live', Sound (st.settle t w s' out) tbl' live' := by
  obtain ⟨tbl', live', ha⟩ := (h.place t w hw).advance h.heap he hq (h.handles t w hw)
  have hhand : st.hand t = w.object := by simp [hand, hw]
  have hkept : Custody.Kept st.held (update st.hand t (out.object w.op))
      (outside live') := by
    apply Passed.kept h.kept
    rw [hhand]
    exact ha.passed
  have hframe {t' : ι} {w' : Working} (hne : t' ≠ t) (hw' : st.work t' = some w') :=
    h.frame hw ha.stepped ha.passed hne hw'
  have hother (c : ℕ) (k : KmemClass) (hck : ¬ (c = st.cpu t ∧ k = w.idx))
      (hidle : ∀ t' w', t' ≠ t → st.work t' = some w' → ¬ (c = st.cpu t' ∧ k = w'.idx)) :
      tbl' c k = s'.magazines c k := by
    rw [ha.stepped.tbl_eq c k hck, ha.stepped.magazines_eq c k hck]
    apply h.rest
    intro t' w' hw'
    by_cases ht : t' = t
    · subst ht
      rw [hw] at hw'
      cases hw'
      exact hck
    · exact hidle t' w' ht hw'
  cases out with
  | goto pc =>
    refine ⟨tbl', live', ha.stepped.sound, ?_, fun t' w' hw' => ?_, fun t' w' hw' => ?_,
      fun t1 t2 h1 h2 => ?_, fun c k hck => ?_⟩
    · simp only [settle, hand_update]
      exact hkept
    · by_cases ht : t' = t
      · subst ht
        simp only [settle, update_self, some.injEq] at hw'
        subst hw'
        exact ha.arrived
      · simp only [settle, update_of_ne ht] at hw'
        exact (hframe ht hw').1
    · by_cases ht : t' = t
      · subst ht
        simp only [settle, update_self, some.injEq] at hw'
        subst hw'
        exact ha.handles
      · simp only [settle, update_of_ne ht] at hw'
        exact (hframe ht hw').2
    · have hwork (t' : ι) (h' : (st.settle t w s' (.goto pc)).work t' ≠ none) :
          st.work t' ≠ none := by
        by_cases ht : t' = t
        · rw [ht, hw]
          simp
        · simpa [settle, ht] using h'
      exact h.alone t1 t2 (hwork t1 h1) (hwork t2 h2)
    · apply hother c k
      · exact hck t { w with pc := pc } (by simp [settle])
      · intro t' w' hne hw'
        exact hck t' w' (by simpa [settle, hne] using hw')
  | done ptr =>
    have hwork (t' : ι) (w' : Working) (hw' : (st.settle t w s' (.done ptr)).work t' = some w') :
        t' ≠ t ∧ st.work t' = some w' := by
      by_cases ht : t' = t
      · simp [settle, ht] at hw'
      · exact ⟨ht, by simpa [settle, ht] using hw'⟩
    refine ⟨tbl', live', ha.stepped.sound, ?_, fun t' w' hw' => ?_, fun t' w' hw' => ?_,
      fun t1 t2 h1 h2 => ?_, fun c k hck => ?_⟩
    · have hover := hkept.hand_over t
      rw [update_self, update_idem] at hover
      simp only [settle, hand_update]
      exact hover
    · obtain ⟨hne, hw'⟩ := hwork t' w' hw'
      exact (hframe hne hw').1
    · obtain ⟨hne, hw'⟩ := hwork t' w' hw'
      exact (hframe hne hw').2
    · obtain ⟨w1, hw1⟩ := ne_none_iff_exists'.mp h1
      obtain ⟨w2, hw2⟩ := ne_none_iff_exists'.mp h2
      exact h.alone t1 t2 (by simp [(hwork t1 w1 hw1).2]) (by simp [(hwork t2 w2 hw2).2])
    · by_cases hc : c = st.cpu t ∧ k = w.idx
      · rw [hc.1, hc.2]
        exact ha.arrived
      · apply hother c k hc
        intro t' w' hne hw'
        exact hck t' w' (by simpa [settle, hne] using hw')

theorem Sound.enter {op : HeapOp} {k : KmemClass} {held' : List ℕ}
    (hidle : st.work t = none)
    (halone : ∀ t', t' ≠ t → st.cpu t' = st.cpu t → st.work t' = none)
    (hmag : s'.magazine = st.kmem.magazine) (hpmm : s'.pmm = st.kmem.pmm)
    (hsize : s'.objSize = st.kmem.objSize) (hfree : s'.freeMags = st.kmem.freeMags)
    (hdepots : s'.depots = st.kmem.depots) (hcarved : s'.carved = st.kmem.carved)
    (hmags : s'.magazines = st.kmem.magazines)
    (hkept : Custody.Kept held' (update st.hand t (HeapPc.object op .curcpu)) (outside live))
    (hh : Handles s' live k (HeapPc.object op .curcpu)) :
    Sound { st with kmem := s', held := held',
                    work := update st.work t (some ⟨op, k, .curcpu⟩) } tbl live := by
  obtain ⟨g, hg⟩ := h.heap
  have hcases (t' : ι) (w' : Working)
      (hw' : update st.work t (some ⟨op, k, .curcpu⟩) t' = some w') :
      (t' = t ∧ w' = ⟨op, k, .curcpu⟩) ∨ (t' ≠ t ∧ st.work t' = some w') := by
    by_cases ht : t' = t
    · rw [ht, update_self] at hw'
      exact .inl ⟨ht, (some.inj hw').symm⟩
    · rw [update_of_ne ht] at hw'
      exact .inr ⟨ht, hw'⟩
  have hother (t' : ι) (w' : Working) (hne : t' ≠ t) (hw' : st.work t' = some w') :
      st.cpu t' ≠ st.cpu t := by
    intro hc
    rw [halone t' hne hc] at hw'
    cases hw'
  have hslot : tbl (st.cpu t) k = st.kmem.magazines (st.cpu t) k := by
    apply h.rest
    rintro t' w' hw' ⟨hc, -⟩
    by_cases ht : t' = t
    · rw [ht, hidle] at hw'
      cases hw'
    · exact hother t' w' ht hw' hc.symm
  refine ⟨⟨g, hg.congr hmag hpmm hsize hfree hdepots hcarved⟩, ?_, fun t' w' hw' => ?_,
    fun t' w' hw' => ?_, fun t1 t2 h1 h2 hc => ?_, fun c k' hck => ?_⟩
  · rw [hand_update]
    exact hkept
  · simp only [ownTop, hmag, hmags]
    rcases hcases t' w' hw' with ⟨rfl, rfl⟩ | ⟨hne, hw'⟩
    · exact hslot
    · exact h.place t' w' hw'
  · rcases hcases t' w' hw' with ⟨rfl, rfl⟩ | ⟨hne, hw'⟩
    · exact hh
    · intro x hx
      obtain ⟨hl, hs⟩ := h.handles t' w' hw' x hx
      exact ⟨hl, by simpa only [hsize] using hs⟩
  · obtain ⟨w1, hw1⟩ := ne_none_iff_exists'.mp h1
    obtain ⟨w2, hw2⟩ := ne_none_iff_exists'.mp h2
    rcases hcases t1 w1 hw1 with ⟨e1, -⟩ | ⟨hne1, hw1⟩
    · rcases hcases t2 w2 hw2 with ⟨e2, -⟩ | ⟨hne2, hw2⟩
      · rw [e1, e2]
      · exact absurd (e1 ▸ hc.symm) (hother t2 w2 hne2 hw2)
    · rcases hcases t2 w2 hw2 with ⟨e2, -⟩ | ⟨hne2, hw2⟩
      · exact absurd (e2 ▸ hc) (hother t1 w1 hne1 hw1)
      · exact h.alone t1 t2 (by simp [hw1]) (by simp [hw2]) hc
  · simp only [hmags]
    apply h.rest
    intro t' w' hw'
    by_cases ht : t' = t
    · rw [ht, hidle] at hw'
      cases hw'
    · exact hck t' w' (by simpa [ht] using hw')

theorem Sound.step {e : HeapEvent ι} (hx : st.Exclusive e)
    (hsup : st.Supplied e) (he : st.step e = some st') : ∃ tbl' live', Sound st' tbl' live' := by
  have hq := hsup st' he
  cases e with
  | call t op =>
    cases op with
    | kmalloc size =>
      simp only [KmemThreads.step] at he
      split_ifs at he with hc
      cases hk : kmemGetIndex size with
      | none =>
        simp only [hk] at he
        cases he
      | some idx =>
        simp only [hk] at he
        cases he
        refine ⟨tbl, live, h.enter hc.1 hx.1 rfl rfl rfl rfl rfl rfl rfl ?_ nofun⟩
        change Custody.Kept st.held (update st.hand t none) _
        rw [← h.hand_eq_none hc.1, update_eq_self]
        exact h.kept
    | kfree ptr =>
      simp only [KmemThreads.step] at he
      split_ifs at he with hidle
      have hheld : ptr ∈ st.held := hx.2 ptr rfl
      have hlive : live ptr ≠ none := (h.kept.mem_iff ptr).mpr (.inl hheld)
      obtain ⟨g, hg⟩ := h.heap
      rw [hg.physToPage hlive] at he
      simp only at he
      split_ifs at he with hz
      cases he
      obtain ⟨k, -, hsize⟩ := hg.kind_of_live hlive hz
      have hidx : kmemGetIndex (st.kmem.objSize (ptr / pageSize)) = some k := by
        rw [hsize, kmemGetIndex_classSize]
      have hkept := h.kept.take (h.hand_eq_none hidle) hheld
      unfold enterKfree
      simp only [KmemHeap.kasanKfree, hidx]
      refine ⟨tbl, live, h.enter hidle hx.1 rfl rfl rfl rfl rfl rfl rfl hkept ?_⟩
      intro x hxp
      cases hxp
      exact ⟨hlive, hsize⟩
  | run t =>
    simp only [KmemThreads.step] at he
    cases hw : st.work t with
    | none =>
      rw [hw] at he
      cases he
    | some w =>
      rw [hw] at he
      obtain ⟨⟨s', out⟩, hadv, hst'⟩ := map_eq_some_iff.mp he
      subst hst'
      apply h.run hw hadv
      cases out <;> exact hq
  | migrate t c =>
    cases he
    have hidle : st.work t = none := hx
    have hcpu (t' : ι) (ht' : st.work t' ≠ none) : update st.cpu t c t' = st.cpu t' := by
      apply update_of_ne
      rintro rfl
      exact ht' hidle
    refine ⟨tbl, live, h.heap, h.kept, fun t' w' hw' => ?_, h.handles, fun t1 t2 h1 h2 => ?_,
      fun c' k hck => h.rest c' k fun t' w' hw' => ?_⟩
    · simp only [hcpu t' (by simp [show st.work t' = some w' from hw'])]
      exact h.place t' w' hw'
    · simp only [hcpu t1 h1, hcpu t2 h2]
      exact h.alone t1 t2 h1 h2
    · have hw := hck t' w' hw'
      simp only [hcpu t' (by simp [hw'])] at hw
      exact hw

omit [DecidableEq ι] in
theorem Sound.inOrder : st.InOrder := by
  obtain ⟨g, hg⟩ := h.heap
  have hshelf (i : Shelf) (a : ℕ) : OnShelf st.kmem i a ↔ a ∈ g.shelf i :=
    ((hg.racked.shelves.linked i).mem_iff a).symm
  -- the magazine that a CPU or its call has can be found
  have hreach (c : ℕ) (k : KmemClass) (a : ℕ) (ha : tbl c k = some a) : st.Reachable a := by
    by_cases hw : ∃ t w, st.work t = some w ∧ c = st.cpu t ∧ k = w.idx
    · obtain ⟨t, w, hw, rfl, rfl⟩ := hw
      rcases (h.place t w hw).slot_or_magazine ha with hs | hm
      · exact .inl ⟨_, _, hs⟩
      · exact .inr (.inr (.inr ⟨t, w, hw, hm⟩))
    · refine .inl ⟨c, k, ?_⟩
      rw [← h.rest c k fun t w hw' hc => hw ⟨t, w, hw', hc⟩]
      exact ha
  refine ⟨h.kept.nodup, fun x hx => ?_, fun k j a hf he => ?_, fun c k a ha hswap j => ?_⟩
  · have hkind := (hg.stocked.carved x).mp hx
    cases hloc : g.loc x with
    | none =>
      have hlive := (hg.loc_eq_none x hkind).mp hloc
      rcases (h.kept.mem_iff x).mp hlive with hheld | ⟨t, ht⟩
      · exact .inl hheld
      · obtain ⟨w, hw, ho⟩ := bind_eq_some_iff.mp ht
        exact .inr (.inl ⟨t, w, hw, ho⟩)
    | some q =>
      obtain ⟨a, n⟩ := q
      have hget : (g.contents a)[n]? = some x := (hg.stacked a n x).mpr hloc
      have hne : g.contents a ≠ [] := by
        intro hnil
        rw [hnil] at hget
        cases hget
      refine .inr (.inr ⟨a, n, ?_⟩)
      rcases hg.racked.only a hne with ⟨c, k, hc⟩ | ⟨k, hk⟩
      · exact ⟨hreach c k a hc, (Heap.inSlot_iff (hg.racked.loaded c k a hc)).mpr hget⟩
      · exact ⟨.inr (.inl ⟨k, (hshelf _ a).mpr hk⟩),
          (Heap.inSlot_iff (hg.racked.full k a hk).1).mpr hget⟩
  · rw [hshelf] at hf he
    cases hg.racked.shelves.unique _ _ a hf he
  · have hown : tbl c k = some a := by
      by_cases hw : ∃ t w, st.work t = some w ∧ c = st.cpu t ∧ k = w.idx
      · obtain ⟨t, w, hw, rfl, rfl⟩ := hw
        rcases (h.place t w hw).own_or_swapping ha with ho | hs
        · exact ho
        · exact absurd ⟨t, w, hw, rfl, hs⟩ hswap
      · rw [h.rest c k fun t w hw' hc => hw ⟨t, w, hw', hc⟩]
        exact ha
    rw [hshelf, hshelf]
    exact ⟨hg.racked.not_mem c k a hown _, hg.racked.not_mem c k a hown _⟩

end

/-- From `kmem_init` on, while calls on one CPU do not overlap, no thread moves within a call and no
page allocation fails, the objects and the magazines are in order, also within calls. -/
theorem reaches_inOrder {s : KmemHeap} {free : ℕ → List ℕ} {alloc : Set Buddy.Block}
    {cpu : ι → ℕ} (hwf : s.pmm.Wf free alloc) (hfree : s.freeMags = none)
    (hmags : ∀ c k, s.magazines c k = none) (hcarved : s.carved = [])
    (hr : Run.Reaches Next (fun st e => Exclusive st e ∧ Supplied st e)
      ⟨s.kmemInit, [], fun _ => none, cpu⟩ st') : st'.InOrder := by
  have hsound : ∃ tbl live, Sound st' tbl live := by
    apply hr.invariant
    · rintro st1 e st2 ⟨tbl, live, h⟩ ⟨hx, hsup⟩ he
      exact h.step hx hsup he
    · refine ⟨_, _, Heap.sound_kmemInit hwf hfree hmags hcarved, ?_, nofun, nofun,
        fun _ _ h1 => absurd rfl h1, fun _ _ _ => rfl⟩
      refine ⟨List.nodup_nil, fun x => ?_, nofun, nofun⟩
      simp [outside, hand]
  obtain ⟨tbl, live, h⟩ := hsound
  exact h.inOrder

instance (st : KmemThreads Bool) : (e : HeapEvent Bool) → Decidable (st.Exclusive e)
  | .call t (.kmalloc _) =>
    decidable_of_iff (∀ t', t' ≠ t → st.cpu t' = st.cpu t → st.work t' = none)
      ⟨fun h => ⟨h, nofun⟩, And.left⟩
  | .call t (.kfree ptr) =>
    decidable_of_iff ((∀ t', t' ≠ t → st.cpu t' = st.cpu t → st.work t' = none) ∧ ptr ∈ st.held)
      ⟨fun h => ⟨h.1, fun p hp => by cases hp; exact h.2⟩, fun h => ⟨h.1, h.2 ptr rfl⟩⟩
  | .run _ => instDecidableTrue
  | .migrate t _ => inferInstanceAs (Decidable (st.work t = none))

instance (st : KmemThreads Bool) (e : HeapEvent Bool) : Decidable (st.Supplied e) :=
  inferInstanceAs
    (Decidable (∀ st' ∈ st.step e, st'.kmem.pmm.outOfMemory = st.kmem.pmm.outOfMemory))

def bareThreads (cpu : Bool → ℕ) : KmemThreads Bool :=
  ⟨Heap.bareKmem.kmemInit, [], fun _ => none, cpu⟩

/-- The first calls of two threads on two CPUs, in turn. -/
def inTurn : List (HeapEvent Bool) :=
  [.call false (.kmalloc 8), .call true (.kmalloc 8)] ++
    (List.replicate 50 [HeapEvent.run false, .run true]).flatten

theorem reaches_inOrder_inTurn :
    ∃ st', Run.Reaches Next (fun st e => Exclusive st e ∧ Supplied st e)
      (bareThreads fun t => if t then 1 else 0) st' ∧ st'.held.length = 2 ∧ st'.InOrder := by
  obtain ⟨st', hst', hlen⟩ : ∃ st' ∈ inTurn.foldlM
      (fun (st : KmemThreads Bool) e => if st.Exclusive e ∧ st.Supplied e then st.step e else none)
      (bareThreads fun t => if t then 1 else 0), st'.held.length = 2 := by
    decide +kernel
  have hr := Run.reaches_of_guarded hst'
  exact ⟨st', hr, hlen, reaches_inOrder (Spaces.pool_wf (by decide)) rfl (fun _ _ => rfl) rfl hr⟩

/-- Both threads read the same empty magazine of their CPU; both put it on the empty list, which
links it to itself, and take it off again. -/
def sameMagazine : List (HeapEvent Bool) :=
  .call false (.kmalloc 8) :: List.replicate 11 (.run false) ++
    .call true (.kmalloc 8) :: List.replicate 6 (.run true) ++
    [.run false, .run true, .run false, .run true] ++
    List.replicate 37 (.run false) ++ List.replicate 37 (.run true)

/-- After the two calls the magazine is the CPU's and on the list. -/
theorem sameMagazine_not_inOrder :
    ∃ st' a, sameMagazine.foldlM step (bareThreads fun _ => 0) = some st' ∧
      (∀ t, st'.work t = none) ∧ st'.kmem.pmm.outOfMemory = [] ∧
      st'.kmem.magazines 0 0 = some a ∧ (st'.kmem.depots 0).emptyMags = some a ∧ ¬ st'.InOrder := by
  obtain ⟨st', hst', hfalse, htrue, hoom, hslot, hempty⟩ :
      ∃ st' ∈ sameMagazine.foldlM step (bareThreads fun _ => 0), st'.work false = none ∧
      st'.work true = none ∧ st'.kmem.pmm.outOfMemory = [] ∧ st'.kmem.magazines 0 0 = some 4194304 ∧
      (st'.kmem.depots 0).emptyMags = some 4194304 := by
    decide +kernel
  have hidle (t : Bool) : st'.work t = none := by
    cases t with
    | false => exact hfalse
    | true => exact htrue
  refine ⟨st', 4194304, hst', hidle, hoom, hslot, hempty, fun h => ?_⟩
  have hswap : ¬ st'.Swapping 0 0 := by
    rintro ⟨t, w, hw, -⟩
    rw [hidle t] at hw
    cases hw
  exact (h.loaded 0 0 4194304 hslot hswap 0).2 ⟨4194304, hempty, .refl⟩

end KmemThreads
end Doppio
