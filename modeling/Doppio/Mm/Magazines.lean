import Doppio.Library.Stacks
import Doppio.Mm.Kmem

/-! The magazines: on the lists of the depots, unused, or loaded in the CPUs, and the objects in
them. -/
namespace Doppio
open Function
open Stacks List

inductive Shelf where
  | spare
  | full (idx : KmemClass)
  | empty (idx : KmemClass)
  deriving DecidableEq

namespace KmemHeap

def head (s : KmemHeap) : Shelf → Option ℕ
  | .spare => s.freeMags
  | .full idx => (s.depots idx).fullMags
  | .empty idx => (s.depots idx).emptyMags

/-- The recorded length of a list; none for unused magazines. -/
def count (s : KmemHeap) : Shelf → BitVec 32
  | .spare => 0
  | .full idx => (s.depots idx).fullCount
  | .empty idx => (s.depots idx).emptyCount

def next (s : KmemHeap) (mag : ℕ) : Option ℕ := (s.magazine mag).next

end KmemHeap

def Depot.SameLists (d d' : Depot) : Prop :=
  d'.fullMags = d.fullMags ∧ d'.emptyMags = d.emptyMags ∧ d'.fullCount = d.fullCount ∧
    d'.emptyCount = d.emptyCount

variable {k : KmemClass}

theorem Depot.SameLists.update {depots : KmemClass → Depot} {d : Depot}
    (h : (depots k).SameLists d) (k' : KmemClass) :
    (depots k').SameLists (update depots k d k') := by
  by_cases hk : k' = k
  · subst hk
    rw [update_self]
    exact h
  · rw [update_of_ne hk]
    exact ⟨rfl, rfl, rfl, rfl⟩

abbrev Loaded := ℕ → KmemClass → Option ℕ

def Loaded.set (tbl : Loaded) (c : ℕ) (k : KmemClass) (mag : Option ℕ) : Loaded :=
  update tbl c (update (tbl c) k mag)

theorem Loaded.set_apply (tbl : Loaded) (c : ℕ) (k : KmemClass) (mag : Option ℕ) (c' : ℕ)
    (k' : KmemClass) : tbl.set c k mag c' k' = if c' = c ∧ k' = k then mag else tbl c' k' := by
  unfold Loaded.set
  by_cases hc : c' = c
  · subst hc
    by_cases hk : k' = k <;> simp [hk]
  · simp [hc]

@[simp] theorem Loaded.set_self (tbl : Loaded) (c : ℕ) (k : KmemClass) (mag : Option ℕ) :
    tbl.set c k mag c k = mag := by
  simp [Loaded.set_apply]

@[simp] theorem Loaded.set_set (tbl : Loaded) (c : ℕ) (k : KmemClass) (mag mag' : Option ℕ) :
    (tbl.set c k mag).set c k mag' = tbl.set c k mag' := by
  funext c' k'
  simp only [Loaded.set_apply]
  split_ifs <;> rfl

theorem Loaded.set_eq_self {tbl : Loaded} {c : ℕ} {mag : Option ℕ}
    (h : tbl c k = mag) : tbl.set c k mag = tbl := by
  funext c' k'
  rw [Loaded.set_apply]
  split_ifs with he
  · rw [he.1, he.2, h]
  · rfl

/-- The objects of a magazine from the bottom up, all of one class. -/
structure HoldsObjects (kind : ℕ → Option KmemClass) (k : KmemClass) (m : Magazine) (xs : List ℕ) :
    Prop where
  top : m.top = xs.length
  length_le : xs.length ≤ kmemMagCapacity
  slots : ∀ n x, xs[n]? = some x → m.slots n = some x
  kind : ∀ x ∈ xs, kind x = some k

variable {kind' kind : ℕ → Option KmemClass}

theorem HoldsObjects.congr {m m' : Magazine}
    {xs : List ℕ} (h : HoldsObjects kind k m xs) (htop : m'.top = m.top) (hslots : m'.slots = m.slots)
    (hkind : ∀ x ∈ xs, kind' x = kind x) : HoldsObjects kind' k m' xs :=
  ⟨htop.trans h.top, h.length_le, fun n x hx => hslots ▸ h.slots n x hx,
    fun x hx => (hkind x hx).trans (h.kind x hx)⟩

/-- The magazines on the lists `l` and in the CPUs `tbl`, with the objects `contents`. -/
structure Racked (s : KmemHeap) (tbl : Loaded) (kind : ℕ → Option KmemClass) (l : Shelf → List ℕ)
    (contents : ℕ → List ℕ) : Prop where
  shelves : Shelves s.next s.head l
  count_eq : ∀ i, i ≠ .spare → s.count i = BitVec.ofNat 32 (l i).length
  not_mem : ∀ c k a, tbl c k = some a → ∀ i, a ∉ l i
  loaded_inj : ∀ c k c' k' a, tbl c k = some a → tbl c' k' = some a → c = c' ∧ k = k'
  loaded : ∀ c k a, tbl c k = some a → HoldsObjects kind k (s.magazine a) (contents a)
  full : ∀ k, ∀ a ∈ l (.full k),
    HoldsObjects kind k (s.magazine a) (contents a) ∧ (contents a).length = kmemMagCapacity
  empty : ∀ k, ∀ a ∈ l (.empty k), (s.magazine a).top = 0
  only : ∀ a, contents a ≠ [] → (∃ c k, tbl c k = some a) ∨ ∃ k, a ∈ l (.full k)

namespace Racked

variable {s s' : KmemHeap} {tbl : Loaded} {kind : ℕ → Option KmemClass} {l : Shelf → List ℕ}
  {contents : ℕ → List ℕ} {c : ℕ} {k : KmemClass} {a : ℕ} {i : Shelf}

section
variable (h : Racked s tbl kind l contents)
include h

theorem of_data (hshelves : Shelves s'.next s'.head l) (hcount : s'.count = s.count)
    (hdata : ∀ b, (s'.magazine b).top = (s.magazine b).top ∧
      (s'.magazine b).slots = (s.magazine b).slots)
    (hkind : ∀ a, ∀ x ∈ contents a, kind' x = kind x) : Racked s' tbl kind' l contents := by
  refine ⟨hshelves, ?_, h.not_mem, h.loaded_inj, ?_, ?_, ?_, h.only⟩
  · rw [hcount]
    exact h.count_eq
  · intro c k a ha
    exact (h.loaded c k a ha).congr (hdata a).1 (hdata a).2 (hkind a)
  · intro k a ha
    obtain ⟨hh, hlen⟩ := h.full k a ha
    exact ⟨hh.congr (hdata a).1 (hdata a).2 (hkind a), hlen⟩
  · intro k a ha
    rw [(hdata a).1]
    exact h.empty k a ha

theorem congr (hmag : s'.magazine = s.magazine) (hfree : s'.freeMags = s.freeMags)
    (hdepots : ∀ k, (s.depots k).SameLists (s'.depots k))
    (hkind : ∀ a, ∀ x ∈ contents a, kind' x = kind x) : Racked s' tbl kind' l contents := by
  have hhead : s'.head = s.head := by
    funext i
    cases i with
    | spare => exact hfree
    | full k => exact (hdepots k).1
    | empty k => exact (hdepots k).2.1
  have hcount : s'.count = s.count := by
    funext i
    cases i with
    | spare => rfl
    | full k => exact (hdepots k).2.2.1
    | empty k => exact (hdepots k).2.2.2
  refine h.of_data ?_ hcount (fun b => by simp [hmag]) hkind
  rw [hhead, show s'.next = s.next from funext fun a => by rw [KmemHeap.next, hmag]; rfl]
  exact h.shelves

theorem withPmm (pmm : Pmm) (objSize : ℕ → ℕ) :
    Racked { s with pmm := pmm, objSize := objSize } tbl kind l contents :=
  h.congr rfl rfl (fun _ => ⟨rfl, rfl, rfl, rfl⟩) fun _ _ _ => rfl

theorem contents_eq_nil (htbl : ∀ c k, tbl c k ≠ some a)
    (hfull : ∀ k, a ∉ l (.full k)) : contents a = [] := by
  by_contra hne
  rcases h.only a hne with ⟨c, k, hc⟩ | ⟨k, hk⟩
  · exact htbl c k hc
  · exact hfull k hk

theorem contents_of_shelf (ha : a ∈ l i) (hi : ∀ k, i ≠ .full k) : contents a = [] := by
  apply h.contents_eq_nil
  · exact fun c k' hc => h.not_mem c k' a hc _ ha
  · exact fun k' hf => hi k' (h.shelves.unique _ _ a ha hf)

theorem take (hi : s.head i = some a) (htbl : tbl c k = none)
    (hhead : s'.head = update s.head i (s.next a)) (hmag : ∀ b ≠ a, s'.magazine b = s.magazine b)
    (hcount : ∀ j, s'.count j = if j = i ∧ i ≠ .spare then s.count j - 1 else s.count j)
    (ha : HoldsObjects kind k (s'.magazine a) (contents a)) :
    ∃ as, l i = a :: as ∧ Racked s' (tbl.set c k (some a)) kind (update l i as) contents := by
  obtain ⟨as, hl, hsh, hnot⟩ := h.shelves.pop hi
  have hmem (j : Shelf) (b : ℕ) (hb : b ∈ update l i as j) : b ∈ l j ∧ b ≠ a := by
    refine ⟨?_, fun e => hnot j (e ▸ hb)⟩
    by_cases hj : j = i
    · subst hj
      rw [update_self] at hb
      rw [hl]
      exact mem_cons_of_mem a hb
    · rwa [update_of_ne hj] at hb
  have hold (c' : ℕ) (k' : KmemClass) (b : ℕ) (hb : tbl c' k' = some b) : b ≠ a := by
    rintro rfl
    exact h.not_mem c' k' b hb i (by simp [hl])
  refine ⟨as, hl, ⟨?_, ?_, ?_, ?_, ?_, ?_, ?_, ?_⟩⟩
  · rw [hhead]
    have hnext : s'.next = update s.next a (s'.next a) := by
      funext b
      by_cases hb : b = a <;> simp [KmemHeap.next, hb, hmag]
    rw [hnext]
    exact hsh.write hnot _
  · intro j hj
    rw [hcount]
    by_cases hji : j = i
    · subst hji
      rw [if_pos ⟨rfl, hj⟩, h.count_eq j hj, hl, update_self, length_cons]
      rw [BitVec.ofNat_add]
      exact BitVec.add_sub_cancel ..
    · rw [if_neg (fun hc => hji hc.1), h.count_eq j hj, update_of_ne hji]
  · intro c' k' b hb j hbj
    rw [Loaded.set_apply] at hb
    split_ifs at hb
    · cases hb
      exact hnot j hbj
    · exact h.not_mem c' k' b hb j (hmem j b hbj).1
  · intro c1 k1 c2 k2 b h1 h2
    rw [Loaded.set_apply] at h1 h2
    split_ifs at h1 h2 with e1 e2 e2
    · exact ⟨e1.1.trans e2.1.symm, e1.2.trans e2.2.symm⟩
    · exact absurd (Option.some.inj h1).symm (hold c2 k2 b h2)
    · exact absurd (Option.some.inj h2).symm (hold c1 k1 b h1)
    · exact h.loaded_inj c1 k1 c2 k2 b h1 h2
  · intro c' k' b hb
    rw [Loaded.set_apply] at hb
    split_ifs at hb with he
    · cases hb
      rw [he.2]
      exact ha
    · rw [hmag b (hold c' k' b hb)]
      exact h.loaded c' k' b hb
  · intro k' b hb
    rw [hmag b (hmem _ b hb).2]
    exact h.full k' b (hmem _ b hb).1
  · intro k' b hb
    rw [hmag b (hmem _ b hb).2]
    exact h.empty k' b (hmem _ b hb).1
  · intro b hb
    by_cases hba : b = a
    · exact .inl ⟨c, k, by simp [hba]⟩
    rcases h.only b hb with ⟨c', k', hc'⟩ | ⟨k', hk'⟩
    · refine .inl ⟨c', k', ?_⟩
      rw [Loaded.set_apply, if_neg]
      · exact hc'
      · rintro ⟨rfl, rfl⟩
        simp [htbl] at hc'
    · refine .inr ⟨k', ?_⟩
      by_cases hi' : Shelf.full k' = i
      · subst hi'
        rw [update_self]
        rw [hl, mem_cons] at hk'
        exact hk'.resolve_left hba
      · rwa [update_of_ne hi']

section
variable (htbl : tbl c k = some a)
include htbl

theorem put (hi : (i = .full k ∧ (contents a).length = kmemMagCapacity) ∨
      (i = .empty k ∧ contents a = []))
    (hmag : s'.magazine = update s.magazine a { s.magazine a with next := s.head i })
    (hhead : s'.head = update s.head i (some a))
    (hcount : ∀ j, s'.count j = if j = i then s.count j + 1 else s.count j) :
    Racked s' (tbl.set c k none) kind (update l i (a :: l i)) contents := by
  have hnot := h.not_mem c k a htbl
  have hmem (j : Shelf) (b : ℕ) (hb : b ∈ update l i (a :: l i) j) :
      b ∈ l j ∨ (j = i ∧ b = a) := by
    by_cases hj : j = i
    · subst hj
      rw [update_self, mem_cons] at hb
      rcases hb with hb | hb
      · exact .inr ⟨rfl, hb⟩
      · exact .inl hb
    · rw [update_of_ne hj] at hb
      exact .inl hb
  have hdata (b : ℕ) : (s'.magazine b).top = (s.magazine b).top ∧
      (s'.magazine b).slots = (s.magazine b).slots := by
    rw [hmag]
    by_cases hb : b = a <;> simp [hb]
  have hset {c' : ℕ} {k' : KmemClass} {b : ℕ} (hb : tbl.set c k none c' k' = some b) :
      tbl c' k' = some b ∧ b ≠ a := by
    rw [Loaded.set_apply] at hb
    split_ifs at hb with he
    refine ⟨hb, ?_⟩
    rintro rfl
    exact he (h.loaded_inj c' k' c k b hb htbl)
  refine ⟨?_, ?_, ?_, ?_, ?_, ?_, ?_, ?_⟩
  · have hnext : s'.next = update s.next a (s.head i) := by
      funext b
      unfold KmemHeap.next
      rw [hmag]
      by_cases hb : b = a <;> simp [hb]
    rw [hnext, hhead]
    exact h.shelves.push hnot i
  · intro j hj
    rw [hcount]
    by_cases hji : j = i
    · subst hji
      rw [if_pos rfl, h.count_eq j hj, update_self, length_cons, BitVec.ofNat_add]
      rfl
    · rw [if_neg hji, h.count_eq j hj, update_of_ne hji]
  · intro c' k' b hb j hbj
    obtain ⟨hb', hne⟩ := hset hb
    rcases hmem j b hbj with hbj | ⟨-, hba⟩
    · exact h.not_mem c' k' b hb' j hbj
    · exact hne hba
  · exact fun c1 k1 c2 k2 b h1 h2 => h.loaded_inj c1 k1 c2 k2 b (hset h1).1 (hset h2).1
  · intro c' k' b hb
    exact (h.loaded c' k' b (hset hb).1).congr (hdata b).1 (hdata b).2 fun _ _ => rfl
  · intro k' b hb
    rcases hmem _ b hb with hb | ⟨hk', rfl⟩
    · obtain ⟨hh, hlen⟩ := h.full k' b hb
      exact ⟨hh.congr (hdata b).1 (hdata b).2 fun _ _ => rfl, hlen⟩
    · rcases hi with ⟨rfl, hlen⟩ | ⟨rfl, -⟩
      · obtain rfl := Shelf.full.inj hk'
        exact ⟨(h.loaded c k' b htbl).congr (hdata b).1 (hdata b).2 fun _ _ => rfl, hlen⟩
      · cases hk'
  · intro k' b hb
    rw [(hdata b).1]
    rcases hmem _ b hb with hb | ⟨hk', rfl⟩
    · exact h.empty k' b hb
    · rcases hi with ⟨rfl, -⟩ | ⟨-, hnil⟩
      · cases hk'
      · rw [(h.loaded c k b htbl).top, hnil]
        rfl
  · intro b hb
    rcases h.only b hb with ⟨c', k', hc'⟩ | ⟨k', hk'⟩
    · by_cases he : c' = c ∧ k' = k
      · obtain ⟨rfl, rfl⟩ := he
        rw [htbl] at hc'
        cases hc'
        rcases hi with ⟨rfl, -⟩ | ⟨-, hnil⟩
        · exact .inr ⟨k', by simp⟩
        · exact absurd hnil hb
      · refine .inl ⟨c', k', ?_⟩
        rw [Loaded.set_apply, if_neg he]
        exact hc'
    · refine .inr ⟨k', ?_⟩
      by_cases hi' : Shelf.full k' = i
      · subst hi'
        rw [update_self]
        exact mem_cons_of_mem a hk'
      · rwa [update_of_ne hi']

theorem setNext {v : Option ℕ}
    (hmag : s'.magazine = update s.magazine a { s.magazine a with next := v })
    (hhead : s'.head = s.head) (hcount : s'.count = s.count) :
    Racked s' tbl kind l contents := by
  have hnext : s'.next = update s.next a v := by
    funext b
    unfold KmemHeap.next
    rw [hmag]
    by_cases hb : b = a <;> simp [hb]
  refine h.of_data ?_ hcount (fun b => ?_) fun _ _ _ => rfl
  · rw [hnext, hhead]
    exact h.shelves.write (h.not_mem c k a htbl) v
  · rw [hmag]
    by_cases hb : b = a <;> simp [hb]

theorem refill {q : Magazine}
    {xs : List ℕ} (hnew : HoldsObjects kind k q xs) (hq : q.next = (s.magazine a).next) :
    Racked { s with magazine := update s.magazine a q } tbl kind l (update contents a xs) := by
  have hnext : KmemHeap.next { s with magazine := update s.magazine a q } = s.next := by
    funext b
    by_cases hb : b = a <;> simp [KmemHeap.next, hb, hq]
  have hshelf {i : Shelf} {b : ℕ} (hb : b ∈ l i) : b ≠ a := by
    rintro rfl
    exact h.not_mem c k b htbl i hb
  refine ⟨hnext ▸ h.shelves, h.count_eq, h.not_mem, h.loaded_inj, ?_, ?_, ?_, ?_⟩
  · intro c' k' b hb
    by_cases hba : b = a
    · subst hba
      obtain ⟨rfl, rfl⟩ := h.loaded_inj c' k' c k b hb htbl
      simpa using hnew
    · simp only [update_of_ne hba]
      exact h.loaded c' k' b hb
  · intro k' b hb
    simp only [update_of_ne (hshelf hb)]
    exact h.full k' b hb
  · intro k' b hb
    simp only [update_of_ne (hshelf hb)]
    exact h.empty k' b hb
  · intro b hb
    by_cases hba : b = a
    · exact .inl ⟨c, k, by rw [hba, htbl]⟩
    · rw [update_of_ne hba] at hb
      exact h.only b hb

theorem pushSlot (htop : (s.magazine a).top < kmemMagCapacity) {x : ℕ} (hx : kind x = some k) :
    ∃ m, s.pushSlot a x = some { s with magazine := m } ∧ Racked { s with magazine := m } tbl kind l
        (update contents a (contents a ++ [x])) ∧ (m a).top = (s.magazine a).top + 1 := by
  have hh := h.loaded c k a htbl
  have htop' := hh.top
  let q : Magazine := { s.magazine a with
    slots := update (s.magazine a).slots (s.magazine a).top.toNat (some x)
    top := (s.magazine a).top + 1 }
  have hnew : HoldsObjects kind k q (contents a ++ [x]) := by
    refine ⟨?_, ?_, ?_, ?_⟩
    · simp [q, htop']
    · rw [length_append, length_singleton]
      omega
    · intro n y hy
      simp only [q]
      rw [htop']
      rcases Nat.lt_trichotomy n (contents a).length with hn | rfl | hn
      · rw [getElem?_append_left hn] at hy
        rw [update_of_ne (by omega)]
        exact hh.slots n y hy
      · simpa using hy
      · rw [getElem?_eq_none (by simp; omega)] at hy
        cases hy
    · intro y hy
      rw [mem_append, mem_singleton] at hy
      rcases hy with hy | rfl
      · exact hh.kind y hy
      · exact hx
  refine ⟨update s.magazine a q, ?_, h.refill htbl hnew rfl, by simp [q]⟩
  unfold KmemHeap.pushSlot
  rw [if_pos ⟨by omega, htop⟩]
  rfl

theorem popSlot (htop : 0 < (s.magazine a).top) :
    ∃ m x xs, contents a = xs ++ [x] ∧ s.popSlot a = some ({ s with magazine := m }, some x) ∧
      Racked { s with magazine := m } tbl kind l (update contents a xs) ∧ kind x = some k := by
  have hh := h.loaded c k a htbl
  have htop' := hh.top
  have hle := hh.length_le
  have hne : contents a ≠ [] := by
    intro hnil
    rw [hnil, length_nil] at htop'
    omega
  obtain ⟨xs, x, hxs⟩ : ∃ xs x, contents a = xs ++ [x] :=
    ⟨_, _, (dropLast_append_getLast hne).symm⟩
  have hlen : (contents a).length = xs.length + 1 := by simp [hxs]
  have hnew : HoldsObjects kind k { s.magazine a with top := (s.magazine a).top - 1 } xs := by
    refine ⟨?_, ?_, ?_, ?_⟩
    · simp only
      omega
    · omega
    · intro n y hy
      apply hh.slots
      rw [hxs, getElem?_append_left (List.getElem?_eq_some_iff.mp hy).1]
      exact hy
    · intro y hy
      apply hh.kind
      simp [hxs, hy]
  refine ⟨_, x, xs, hxs, ?_, h.refill htbl hnew rfl, hh.kind x (by simp [hxs])⟩
  have hslot : (s.magazine a).slots ((s.magazine a).top - 1).toNat = some x := by
    apply hh.slots
    rw [show ((s.magazine a).top - 1).toNat = xs.length by omega, hxs]
    simp
  unfold KmemHeap.popSlot
  rw [if_pos ⟨by omega, by omega⟩, hslot]
  rfl

end

end

end Racked

/-- The magazines of the page at `batch`. -/
def magazineAt (batch i : ℕ) : ℕ := batch + i * magazineSize

def magazinesPerPage : ℕ := pageSize / magazineSize

theorem magazineAt_inj {batch i j : ℕ} (h : magazineAt batch i = magazineAt batch j) : i = j := by
  unfold magazineAt magazineSize at h
  omega

namespace KmemHeap

theorem foldl_setMag (s : KmemHeap) (g : ℕ → Magazine → Magazine) (batch n : ℕ) :
    ∃ m, (range n).foldl (fun s i => s.setMag (magazineAt batch i) (g i)) s =
        { s with magazine := m } ∧
      (∀ i < n, m (magazineAt batch i) = g i (s.magazine (magazineAt batch i))) ∧
      ∀ a, (∀ i < n, a ≠ magazineAt batch i) → m a = s.magazine a := by
  induction n with
  | zero => exact ⟨s.magazine, rfl, fun i hi => absurd hi (by omega), fun _ _ => rfl⟩
  | succ n ih =>
    obtain ⟨m, he, hin, hout⟩ := ih
    refine ⟨update m (magazineAt batch n) (g n (m (magazineAt batch n))), ?_, ?_, ?_⟩
    · rw [range_succ, foldl_append, he]
      rfl
    · intro i hi
      by_cases hin' : i = n
      · subst hin'
        rw [update_self, hout _ fun j hj e => absurd (magazineAt_inj e) (by omega)]
      · rw [update_of_ne fun e => hin' (magazineAt_inj e)]
        exact hin i (by omega)
    · intro a ha
      rw [update_of_ne (ha n (by omega))]
      exact hout a fun i hi => ha i (by omega)

theorem linkBatch_spec (s : KmemHeap) (batch : ℕ) :
    ∃ m, s.linkBatch batch = { s with magazine := m } ∧
      LinkedQueue.Linked (fun a => (m a).next) (some batch)
        ((range magazinesPerPage).map (magazineAt batch)) ∧
      ∀ a, (∀ i < magazinesPerPage, a ≠ magazineAt batch i) → m a = s.magazine a := by
  obtain ⟨m0, he, hin, hout⟩ := s.foldl_setMag
    (fun i q => { q with next := some (magazineAt batch (i + 1)) }) batch 27
  let m := update m0 (magazineAt batch 27)
    { m0 (magazineAt batch 27) with next := none }
  have hlast : magazinesPerPage = 28 := by decide
  refine ⟨m, ?_, ?_, ?_⟩
  · have hloop : s.linkBatch batch = ((range 27).foldl (fun s i =>
        s.setMag (magazineAt batch i) fun q =>
          { q with next := some (magazineAt batch (i + 1)) }) s).setMag (magazineAt batch 27)
        fun q => { q with next := none } := rfl
    rw [hloop, he]
    rfl
  · have hnext (i : ℕ) (_ : 0 ≤ i) (hi : i < 0 + 28) : (m (magazineAt batch i)).next =
        if i + 1 < 0 + 28 then some (magazineAt batch (i + 1)) else none := by
      by_cases hi' : i = 27
      · subst hi'
        simp [m]
      · have hne : magazineAt batch i ≠ magazineAt batch 27 := fun e => hi' (magazineAt_inj e)
        simp only [m, update_of_ne hne]
        rw [hin i (by omega), if_pos (by omega)]
    have hlinked : LinkedQueue.Linked (fun a => (m a).next) _ _ :=
      LinkedQueue.linked_range' hnext
    exact hlinked
  · intro a ha
    simp only [m]
    rw [update_of_ne (ha 27 (by omega))]
    exact hout a fun i hi => ha i (by omega)

end KmemHeap

theorem Racked.addBatch {s : KmemHeap} {tbl : Loaded}
    {l : Shelf → List ℕ} {contents : ℕ → List ℕ} (h : Racked s tbl kind l contents)
    (hnone : s.freeMags = none) (batch : ℕ)
    (hfresh : ∀ i < magazinesPerPage, (∀ j, magazineAt batch i ∉ l j) ∧
      ∀ c k, tbl c k ≠ some (magazineAt batch i)) :
    ∃ m, s.linkBatch batch = { s with magazine := m } ∧
      Racked { s with magazine := m, freeMags := some batch } tbl kind
        (update l .spare ((range magazinesPerPage).map (magazineAt batch)))
        contents := by
  obtain ⟨m, he, hlinked, hout⟩ := s.linkBatch_spec batch
  have hspare : l .spare = [] := h.shelves.eq_nil (show s.head .spare = none from hnone)
  have hlist (j : Shelf) (a : ℕ) (ha : a ∈ l j) : m a = s.magazine a := by
    apply hout
    rintro i hi rfl
    exact (hfresh i hi).1 j ha
  have hload (c : ℕ) (k : KmemClass) (a : ℕ) (ha : tbl c k = some a) : m a = s.magazine a := by
    apply hout
    rintro i hi rfl
    exact (hfresh i hi).2 c k ha
  have hhead : KmemHeap.head { s with magazine := m, freeMags := some batch } =
      update s.head .spare (some batch) := by
    funext j
    cases j with
    | spare => simp [KmemHeap.head]
    | full k => simp [KmemHeap.head]
    | empty k => simp [KmemHeap.head]
  refine ⟨m, he, ⟨?_, ?_, ?_, h.loaded_inj, ?_, ?_, ?_, ?_⟩⟩
  · rw [hhead, ← append_nil (map _ _), ← hspare]
    apply h.shelves.prepend
    · intro j a ha
      simp only [KmemHeap.next, hlist j a ha]
    · intro a ha
      obtain ⟨i, hi, rfl⟩ := mem_map.mp ha
      exact (hfresh i (mem_range.mp hi)).1
    · exact nodup_range.map fun i j hij => magazineAt_inj hij
    · rw [hspare]
      exact hlinked
  · intro i hi
    have hc := h.count_eq i hi
    cases i with
    | spare => exact absurd rfl hi
    | full k => exact hc
    | empty k => exact hc
  · intro c k a ha j hj
    by_cases hjs : j = .spare
    · subst hjs
      obtain ⟨i, hi, rfl⟩ := mem_map.mp hj
      exact (hfresh i (mem_range.mp hi)).2 c k ha
    · rw [update_of_ne hjs] at hj
      exact h.not_mem c k a ha j hj
  · intro c k a ha
    simp only [hload c k a ha]
    exact h.loaded c k a ha
  · intro k a ha
    simp only [hlist _ a ha]
    exact h.full k a ha
  · intro k a ha
    simp only [hlist _ a ha]
    exact h.empty k a ha
  · intro a ha
    exact h.only a ha

end Doppio
