import Mathlib.Tactic

/-! The circular list of `include/kernel/list.h`. A heap of `struct list_node` is the pair of its
link fields; `none` is the null pointer that `list_del` leaves. -/
namespace Doppio
open Function Option
open List

structure ListHeap (ν : Type*) where
  next : ν → Option ν
  prev : ν → Option ν

namespace ListHeap

variable {ν : Type*}

section ops
variable [DecidableEq ν]

variable (h : ListHeap ν)

def setNext (n : ν) (v : Option ν) : ListHeap ν :=
  { h with next := update h.next n v }

def setPrev (n : ν) (v : Option ν) : ListHeap ν :=
  { h with prev := update h.prev n v }

@[simp] theorem setNext_next (n m : ν) (v : Option ν) :
    (h.setNext n v).next m = if m = n then v else h.next m := by
  simp [setNext, update_apply]

@[simp] theorem setNext_prev (n : ν) (v : Option ν) :
    (h.setNext n v).prev = h.prev := rfl

@[simp] theorem setPrev_prev (n m : ν) (v : Option ν) :
    (h.setPrev n v).prev m = if m = n then v else h.prev m := by
  simp [setPrev, update_apply]

@[simp] theorem setPrev_next (n : ν) (v : Option ν) :
    (h.setPrev n v).next = h.next := rfl

/-- `__list_add`. -/
def listAddBetween (new prev next : ν) : ListHeap ν :=
  (((h.setPrev next (some new)).setNext new (some next)).setPrev new (some prev)).setNext prev
    (some new)

def listAdd (new head : ν) : Option (ListHeap ν) :=
  (h.next head).map fun n => h.listAddBetween new head n

def listAddTail (new head : ν) : Option (ListHeap ν) :=
  (h.prev head).map fun p => h.listAddBetween new p head

/-- `__list_del`. -/
def listDelBetween (prev next : ν) : ListHeap ν :=
  (h.setPrev next (some prev)).setNext prev (some next)

def listDel (entry : ν) : Option (ListHeap ν) := do
  let p ← h.prev entry
  let n ← h.next entry
  pure (((h.listDelBetween p n).setNext entry none).setPrev entry none)

def listEmpty (head : ν) : Bool := h.next head = some head

end ops

def Link (h : ListHeap ν) (u v : ν) : Prop := h.next u = some v ∧ h.prev v = some u

/-- The links from `head` meet exactly `xs` and come back. -/
structure Ring (h : ListHeap ν) (head : ν) (xs : List ν) : Prop where
  nodup : (head :: xs).Nodup
  chain : List.IsChain h.Link ((head :: xs) ++ [head])

variable {h : ListHeap ν} {xs : List ν} {h' : ListHeap ν}

theorem isChain_congr {u : ν} (hc : IsChain h.Link (u :: xs))
    (hn : ∀ x ∈ (u :: xs).dropLast, h'.next x = h.next x)
    (hp : ∀ x ∈ xs, h'.prev x = h.prev x) : IsChain h'.Link (u :: xs) := by
  induction xs generalizing u with
  | nil => simp
  | cons y ys ih =>
    rw [isChain_cons_cons] at hc ⊢
    refine ⟨⟨?_, ?_⟩, ih hc.2 ?_ ?_⟩
    · rw [hn u (by simp), hc.1.1]
    · rw [hp y (by simp), hc.1.2]
    · intro x hx
      exact hn x (by simp [hx])
    · intro x hx
      exact hp x (by simp [hx])

variable {head : ν}

theorem Ring.congr (hr : h.Ring head xs)
    (he : ∀ x ∈ head :: xs, h'.next x = h.next x ∧ h'.prev x = h.prev x) : h'.Ring head xs := by
  have hc := hr.chain
  refine ⟨hr.nodup, ?_⟩
  rw [cons_append] at hc ⊢
  refine isChain_congr hc (fun x hx => ?_) fun x hx => ?_
  · rw [← cons_append, dropLast_concat] at hx
    exact (he x hx).1
  · rw [mem_append, mem_singleton, or_comm, ← mem_cons] at hx
    exact (he x hx).2

/-- The node before the cut after `xs`. -/
def lastOf (head : ν) (xs : List ν) : ν := xs.getLastD head

/-- The node after the cut before `ys`. -/
def firstOf (head : ν) (ys : List ν) : ν := ys.headD head

theorem lastOf_mem (head : ν) (xs : List ν) : lastOf head xs ∈ head :: xs := by
  rcases eq_nil_or_concat xs with rfl | ⟨ys, y, rfl⟩ <;> simp [lastOf]

theorem firstOf_mem (head : ν) (ys : List ν) : firstOf head ys ∈ ys ++ [head] := by
  cases ys <;> simp [firstOf]

variable {ys : List ν}

theorem isChain_cut {R : ν → ν → Prop} :
    IsChain R ((head :: (xs ++ ys)) ++ [head]) ↔
      IsChain R (head :: xs) ∧ R (lastOf head xs) (firstOf head ys) ∧ IsChain R (ys ++ [head]) := by
  rw [show (head :: (xs ++ ys)) ++ [head] = (head :: xs) ++ (ys ++ [head]) by simp, isChain_append]
  have hl : (head :: xs).getLast? = some (lastOf head xs) := by
    rcases eq_nil_or_concat xs with rfl | ⟨zs, z, rfl⟩ <;>
      simp [lastOf, getLast?_cons]
  have hf : (ys ++ [head]).head? = some (firstOf head ys) := by
    cases ys <;> simp [firstOf]
  simp only [hl, hf, mem_def, some.injEq, forall_eq']
  tauto

theorem Ring.link_cut (hr : h.Ring head (xs ++ ys)) :
    h.Link (lastOf head xs) (firstOf head ys) := (isChain_cut.mp hr.chain).2.1

theorem Ring.next_head (hr : h.Ring head xs) :
    h.next head = some (firstOf head xs) := by
  have hcut : h.Ring head ([] ++ xs) := hr
  exact hcut.link_cut.1

variable {x : ν}

theorem ne_of_mem_dropLast (hn : (head :: xs).Nodup)
    (hx : x ∈ (head :: xs).dropLast) : x ≠ lastOf head xs := by
  rcases eq_nil_or_concat xs with rfl | ⟨ys, y, rfl⟩
  · simp at hx
  · rw [concat_eq_append] at hn hx ⊢
    rw [show head :: (ys ++ [y]) = (head :: ys) ++ [y] by simp] at hn hx
    rw [dropLast_concat] at hx
    have hd := disjoint_of_nodup_append hn
    rintro rfl
    exact hd hx (by simp [lastOf])

theorem ne_firstOf_of_mem_tail (hn : (head :: ys).Nodup)
    (hx : x ∈ (ys ++ [head]).tail) : x ≠ firstOf head ys := by
  cases ys with
  | nil => simp at hx
  | cons y ys =>
    simp only [cons_append, tail_cons, mem_append, mem_singleton] at hx
    simp only [nodup_cons, mem_cons, not_or] at hn
    rintro rfl
    rcases hx with hx | hx
    · exact hn.2.1 hx
    · exact hn.1.1 hx.symm

theorem exists_cons_append_head (head : ν) (ys : List ν) :
    ∃ zs, ys ++ [head] = firstOf head ys :: zs ∧ (ys ++ [head]).tail = zs := by
  cases ys <;> simp [firstOf]

variable [DecidableEq ν]

variable {new : ν}

theorem Ring.insert (hr : h.Ring head (xs ++ ys)) (hnew : new ∉ head :: (xs ++ ys)) :
    (h.listAddBetween new (lastOf head xs) (firstOf head ys)).Ring head (xs ++ new :: ys) := by
  obtain ⟨hx, -, hy⟩ := isChain_cut.mp hr.chain
  have hnd := hr.nodup
  have hl := lastOf_mem head xs
  have hf := firstOf_mem head ys
  simp only [mem_cons, mem_append, not_or] at hnew hl
  rw [mem_append, mem_singleton] at hf
  simp only [nodup_cons, mem_append, not_or, nodup_append] at hnd
  have hlast : lastOf head xs ∉ ys := by
    rcases hl with hl | hl
    · rw [hl]
      exact hnd.1.2
    · exact fun hm => hnd.2.2.2 _ hl _ hm rfl
  have hfirst : firstOf head ys ∉ xs := by
    rcases hf with hf | hf
    · exact fun hm => hnd.2.2.2 _ hm _ hf rfl
    · rw [hf]
      exact hnd.1.1
  have hln : new ≠ lastOf head xs := by
    rcases hl with hl | hl
    · rw [hl]
      exact hnew.1
    · exact fun he => hnew.2.1 (he ▸ hl)
  refine ⟨?_, isChain_cut.mpr ⟨?_, ?_, ?_⟩⟩
  · simp only [nodup_cons, mem_append, mem_cons, not_or, nodup_append]
    refine ⟨⟨hnd.1.1, Ne.symm hnew.1, hnd.1.2⟩, hnd.2.1, ⟨hnew.2.2, hnd.2.2.1⟩, ?_⟩
    rintro a ha b (rfl | hb) rfl
    · exact hnew.2.1 ha
    · exact hnd.2.2.2 a ha a hb rfl
  · apply isChain_congr hx
    · intro x hx'
      have h1 := ne_of_mem_dropLast (by simp [hnd.1.1, hnd.2.1]) hx'
      have h2 : x ≠ new := by
        rintro rfl
        rcases mem_cons.mp (mem_of_mem_dropLast hx') with he | hm
        · exact hnew.1 he
        · exact hnew.2.1 hm
      simp [listAddBetween, h1, h2]
    · intro x hx'
      have h1 : x ≠ firstOf head ys := fun he => hfirst (he ▸ hx')
      have h2 : x ≠ new := fun he => hnew.2.1 (he ▸ hx')
      simp [listAddBetween, h1, h2]
  · simp [Link, listAddBetween, firstOf]
  · rw [cons_append]
    obtain ⟨zs, hzs, htl⟩ := exists_cons_append_head head ys
    rw [hzs] at hy
    have hchain : IsChain
        (h.listAddBetween new (lastOf head xs) (firstOf head ys)).Link (ys ++ [head]) := by
      rw [hzs]
      apply isChain_congr hy
      · intro x hx'
        rw [← hzs, dropLast_concat] at hx'
        have h1 : x ≠ lastOf head xs := fun he => hlast (he ▸ hx')
        have h2 : x ≠ new := fun he => hnew.2.2 (he ▸ hx')
        simp [listAddBetween, h1, h2]
      · intro x hx'
        rw [← htl] at hx'
        have h1 := ne_firstOf_of_mem_tail (by simp [hnd.1.2, hnd.2.2.1]) hx'
        have h2 : x ≠ new := by
          rintro rfl
          rcases mem_append.mp (mem_of_mem_tail hx') with hm | hm
          · exact hnew.2.2 hm
          · exact hnew.1 (mem_singleton.mp hm)
        simp [listAddBetween, h1, h2]
    rw [hzs] at hchain ⊢
    rw [isChain_cons_cons]
    have hfn : firstOf head ys ≠ new := by
      rcases hf with hf | hf
      · exact fun he => hnew.2.2 (he ▸ hf)
      · rw [hf]
        exact Ne.symm hnew.1
    exact ⟨by simp [Link, listAddBetween, hln, hfn], hchain⟩

theorem Ring.delete (hr : h.Ring head (xs ++ x :: ys)) :
    ∃ h', h.listDel x = some h' ∧ h'.Ring head (xs ++ ys) := by
  obtain ⟨hx, hlx, hy⟩ := isChain_cut.mp hr.chain
  have hnd := hr.nodup
  simp only [nodup_cons, mem_append, mem_cons, not_or, nodup_append] at hnd
  obtain ⟨zs, hzs, htl⟩ := exists_cons_append_head head ys
  rw [cons_append, hzs, isChain_cons_cons] at hy
  have hprev : h.prev x = some (lastOf head xs) := hlx.2
  have hnext : h.next x = some (firstOf head ys) := hy.1.1
  have hl := lastOf_mem head xs
  have hf := firstOf_mem head ys
  rw [mem_cons] at hl
  rw [mem_append, mem_singleton] at hf
  have hxl : lastOf head xs ≠ x := by
    rcases hl with hl | hl
    · rw [hl]
      exact hnd.1.2.1
    · exact fun he => hnd.2.2.2 _ hl x (.inl rfl) he
  have hxf : firstOf head ys ≠ x := by
    rcases hf with hf | hf
    · exact fun he => hnd.2.2.1.1 (he ▸ hf)
    · rw [hf]
      exact hnd.1.2.1
  have hlast : lastOf head xs ∉ ys := by
    rcases hl with hl | hl
    · rw [hl]
      exact hnd.1.2.2
    · exact fun hm => hnd.2.2.2 _ hl _ (.inr hm) rfl
  have hfirst : firstOf head ys ∉ xs := by
    rcases hf with hf | hf
    · exact fun hm => hnd.2.2.2 _ hm _ (.inr hf) rfl
    · rw [hf]
      exact hnd.1.1
  have hdel : h.listDel x = some
      (((h.listDelBetween (lastOf head xs) (firstOf head ys)).setNext x none).setPrev x none) := by
    simp [listDel, hprev, hnext]
  refine ⟨_, hdel, ?_, isChain_cut.mpr ⟨?_, ?_, ?_⟩⟩
  · simp only [nodup_cons, mem_append, not_or, nodup_append]
    exact ⟨⟨hnd.1.1, hnd.1.2.2⟩, hnd.2.1, hnd.2.2.1.2, fun a ha b hb => hnd.2.2.2 a ha b (.inr hb)⟩
  · apply isChain_congr hx
    · intro z hz
      have h1 := ne_of_mem_dropLast (by simp [hnd.1.1, hnd.2.1]) hz
      have h2 : z ≠ x := by
        rintro rfl
        rcases mem_cons.mp (mem_of_mem_dropLast hz) with he | hm
        · exact hnd.1.2.1 he.symm
        · exact hnd.2.2.2 z hm z (.inl rfl) rfl
      simp [listDelBetween, h1, h2]
    · intro z hz
      have h1 : z ≠ firstOf head ys := fun he => hfirst (he ▸ hz)
      have h2 : z ≠ x := fun he => hnd.2.2.2 z hz x (.inl rfl) he
      simp [listDelBetween, h1, h2]
  · simp [Link, listDelBetween, hxl, hxf]
  · rw [hzs]
    apply isChain_congr hy.2
    · intro z hz
      rw [← hzs, dropLast_concat] at hz
      have h1 : z ≠ lastOf head xs := fun he => hlast (he ▸ hz)
      have h2 : z ≠ x := fun he => hnd.2.2.1.1 (he ▸ hz)
      simp [listDelBetween, h1, h2]
    · intro z hz
      rw [← htl] at hz
      have h1 := ne_firstOf_of_mem_tail (by simp [hnd.1.2.2, hnd.2.2.1.2]) hz
      have h2 : z ≠ x := by
        rintro rfl
        rcases mem_append.mp (mem_of_mem_tail hz) with hm | hm
        · exact hnd.2.2.1.1 hm
        · exact hnd.1.2.1 (mem_singleton.mp hm).symm
      simp [listDelBetween, h1, h2]

theorem listAddBetween_other (h : ListHeap ν) {prev next : ν} (hnew : x ≠ new)
    (hprev : x ≠ prev) (hnext : x ≠ next) :
    (h.listAddBetween new prev next).next x = h.next x ∧
      (h.listAddBetween new prev next).prev x = h.prev x := by
  simp [listAddBetween, hnew, hprev, hnext]

theorem listDel_other {y : ν} (he : h.listDel x = some h') (hx : y ≠ x)
    (hprev : h.prev x ≠ some y) (hnext : h.next x ≠ some y) :
    h'.next y = h.next y ∧ h'.prev y = h.prev y := by
  simp only [listDel, bind_eq_bind, bind_eq_some_iff, Option.pure_def, some.injEq] at he
  obtain ⟨p, hp, n, hn, rfl⟩ := he
  have hyp : y ≠ p := fun e => hprev (e ▸ hp)
  have hyn : y ≠ n := fun e => hnext (e ▸ hn)
  simp [listDelBetween, hx, hyp, hyn]

theorem Ring.addTail (hr : h.Ring head xs) (hnew : new ∉ head :: xs) :
    ∃ h', h.listAddTail new head = some h' ∧ h'.Ring head (xs ++ [new]) ∧
      ∀ x, x ≠ new → x ∉ head :: xs → h'.next x = h.next x ∧ h'.prev x = h.prev x := by
  have hr' : h.Ring head (xs ++ []) := by rwa [append_nil]
  have hprev : h.prev head = some (lastOf head xs) := hr'.link_cut.2
  have hadd : h.listAddTail new head = some (h.listAddBetween new (lastOf head xs) head) := by
    rw [listAddTail, hprev, map_some]
  refine ⟨_, hadd, hr'.insert (by simpa using hnew), ?_⟩
  intro x hx hring
  have hlast : x ≠ lastOf head xs := fun e => hring (e ▸ lastOf_mem head xs)
  have hhead : x ≠ head := fun e => hring (e ▸ mem_cons_self)
  exact h.listAddBetween_other hx hlast hhead

theorem Ring.delFirst (hr : h.Ring head (x :: xs)) :
    ∃ h', h.listDel x = some h' ∧ h'.Ring head xs ∧
      ∀ y, y ∉ head :: x :: xs → h'.next y = h.next y ∧ h'.prev y = h.prev y := by
  have hcut : h.Ring head ([] ++ x :: xs) := hr
  have hcut' : h.Ring head ([x] ++ xs) := hr
  obtain ⟨h', hdel, hring⟩ := hcut.delete
  have hprev : h.prev x = some head := hcut.link_cut.2
  have hnext : h.next x = some (firstOf head xs) := hcut'.link_cut.1
  refine ⟨h', hdel, hring, fun y hy => listDel_other hdel ?_ ?_ ?_⟩
  · rintro rfl
    simp at hy
  · rw [hprev]
    rintro ⟨⟩
    simp at hy
  · rw [hnext]
    rintro ⟨⟩
    have hmem := firstOf_mem head xs
    simp only [mem_append, mem_singleton] at hmem
    simp only [mem_cons] at hy
    tauto

structure Rings {ω : Type*} (h : ListHeap ν) (head : ω → ν) (xs : ω → List ν) : Prop where
  ring : ∀ q, h.Ring (head q) (xs q)
  apart : ∀ q q' x, x ∈ head q :: xs q → x ∈ head q' :: xs q' → q = q'

section rings
variable {ω : Type*} [DecidableEq ω] {h : ListHeap ν} {head : ω → ν} {xs : ω → List ν}

omit [DecidableEq ν] in
theorem Rings.update (hr : h.Rings head xs) {q : ω} (hring : h'.Ring (head q) ys)
    (hnew : ∀ x ∈ ys, x ∈ xs q ∨ ∀ q', x ∉ head q' :: xs q')
    (hframe : ∀ q' ≠ q, ∀ x ∈ head q' :: xs q', h'.next x = h.next x ∧ h'.prev x = h.prev x) :
    h'.Rings head (Function.update xs q ys) := by
  have hmem : ∀ q' x, x ∈ head q' :: Function.update xs q ys q' →
      x ∈ head q' :: xs q' ∨ q' = q ∧ ∀ q', x ∉ head q' :: xs q' := by
    intro q' x hx
    by_cases hq : q' = q
    · subst hq
      rw [update_self, mem_cons] at hx
      rcases hx with rfl | hx
      · exact .inl mem_cons_self
      · exact (hnew x hx).imp (mem_cons_of_mem _) fun hx => ⟨rfl, hx⟩
    · rw [update_of_ne hq] at hx
      exact .inl hx
  constructor
  · intro q'
    by_cases hq : q' = q
    · subst hq
      rwa [update_self]
    · rw [update_of_ne hq]
      exact (hr.ring q').congr (hframe q' hq)
  · intro q1 q2 x h1 h2
    rcases hmem q1 x h1 with hx1 | ⟨e1, hx1⟩ <;> rcases hmem q2 x h2 with hx2 | ⟨e2, hx2⟩
    · exact hr.apart q1 q2 x hx1 hx2
    · exact absurd hx1 (hx2 q1)
    · exact absurd hx2 (hx1 q2)
    · rw [e1, e2]

theorem Rings.addTail (hr : h.Rings head xs) (hnew : ∀ q, new ∉ head q :: xs q) (q : ω) :
    ∃ h', h.listAddTail new (head q) = some h' ∧
      h'.Rings head (Function.update xs q (xs q ++ [new])) := by
  obtain ⟨h', he, hring, hframe⟩ := (hr.ring q).addTail (hnew q)
  refine ⟨h', he, hr.update hring ?_ ?_⟩
  · intro x hx
    rcases mem_append.mp hx with hx | hx
    · exact .inl hx
    · rw [mem_singleton.mp hx]
      exact .inr hnew
  · intro q' hq x hx
    apply hframe
    · rintro rfl
      exact hnew q' hx
    · exact fun hx' => hq (hr.apart q' q x hx hx')

theorem Rings.delFirst (hr : h.Rings head xs) {q : ω} (hq : xs q = x :: ys) :
    ∃ h', h.listDel x = some h' ∧ h'.Rings head (Function.update xs q ys) := by
  have hring := hr.ring q
  rw [hq] at hring
  obtain ⟨h', he, hring', hframe⟩ := hring.delFirst
  refine ⟨h', he, hr.update hring' ?_ ?_⟩
  · intro y hy
    rw [hq]
    exact .inl (mem_cons_of_mem x hy)
  · intro q' hqq y hy
    apply hframe
    rw [← hq]
    exact fun hy' => hqq (hr.apart q' q y hy hy')

end rings
end ListHeap
end Doppio
