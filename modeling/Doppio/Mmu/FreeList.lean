import Doppio.Mmu.Pmm

/-! The doubly linked free lists under `add_to_list` and `remove_from_list`. -/
namespace Doppio
open List Option

/-- The fields that lists do not touch. -/
def Page.data (p : Page) : BitVec 32 × ℕ × Bool := (p.refCount, p.order, p.isFree)

theorem Page.refCount_eq {p q : Page} (h : p.data = q.data) : p.refCount = q.refCount :=
  congrArg Prod.fst h

theorem Page.isFree_eq {p q : Page} (h : p.data = q.data) : p.isFree = q.isFree :=
  congrArg (fun d => d.2.2) h

theorem Page.order_eq {p q : Page} (h : p.data = q.data) : p.order = q.order :=
  congrArg (fun d => d.2.1) h

namespace Pmm

/-- `next` from `head` meets `xs`, then null; every `prev` points back, the first is `prev`. -/
def Linked (page : ℕ → Page) : Option ℕ → Option ℕ → List ℕ → Prop
  | _, head, [] => head = none
  | prev, head, x :: xs =>
    head = some x ∧ (page x).prev = prev ∧ Linked page (some x) (page x).next xs

variable {page : ℕ → Page} {prev head : Option ℕ} {xs ys : List ℕ} {t : ℕ}

theorem Linked.head_eq (h : Linked page prev head xs) : head = xs.head? := by
  cases xs with
  | nil => exact h
  | cons x xs => exact h.1

theorem Linked.congr {page' : ℕ → Page} (h : Linked page prev head xs)
    (he : ∀ x ∈ xs, (page' x).next = (page x).next ∧ (page' x).prev = (page x).prev) :
    Linked page' prev head xs := by
  induction xs generalizing prev head with
  | nil => exact h
  | cons x xs ih =>
    obtain ⟨h1, h2, h3⟩ := h
    obtain ⟨hn, hp⟩ := he x (by simp)
    refine ⟨h1, hp.trans h2, ?_⟩
    rw [hn]
    exact ih h3 fun y hy => he y (by simp [hy])

theorem Linked.cons (page' : ℕ → Page) (h : Linked page none head xs) (hnodup : (t :: xs).Nodup)
    (hnext : (page' t).next = head) (hprev : (page' t).prev = none)
    (he : ∀ x ∈ xs, (page' x).next = (page x).next ∧
      (page' x).prev = if head = some x then some t else (page x).prev) :
    Linked page' none (some t) (t :: xs) := by
  refine ⟨rfl, hprev, ?_⟩
  rw [hnext]
  cases xs with
  | nil => exact h
  | cons x xs =>
    obtain ⟨h1, -, h3⟩ := h
    obtain ⟨hn, hp⟩ := he x (by simp)
    rw [if_pos h1] at hp
    refine ⟨h1, hp, ?_⟩
    rw [hn]
    apply h3.congr
    intro y hy
    obtain ⟨hny, hpy⟩ := he y (by simp [hy])
    refine ⟨hny, ?_⟩
    rw [hpy, if_neg]
    rw [h1]
    intro hxy
    simp only [nodup_cons] at hnodup
    exact hnodup.2.1 (some.inj hxy ▸ hy)

theorem Linked.next_eq (h : Linked page prev head (xs ++ t :: ys)) :
    (page t).next = ys.head? ∧ (page t).prev = xs.getLast?.or prev := by
  induction xs generalizing prev head with
  | nil => exact ⟨h.2.2.head_eq, h.2.1⟩
  | cons x xs ih =>
    obtain ⟨h1, h2⟩ := ih h.2.2
    refine ⟨h1, h2.trans ?_⟩
    rw [getLast?_cons]
    cases xs.getLast? <;> rfl

theorem Linked.remove (page' : ℕ → Page) (h : Linked page prev head (xs ++ t :: ys))
    (hnodup : (xs ++ t :: ys).Nodup) (hnext : ∀ x ∈ xs ++ ys, (page' x).next =
      if xs.getLast? = some x then (page t).next else (page x).next)
    (hprev : ∀ x ∈ xs ++ ys, (page' x).prev =
      if (page t).next = some x then (page t).prev else (page x).prev) :
    Linked page' prev (if xs = [] then (page t).next else head) (xs ++ ys) := by
  induction xs generalizing prev head with
  | nil =>
    obtain ⟨-, hp, hys⟩ := h
    cases ys with
    | nil => exact hys
    | cons y ys =>
      obtain ⟨h1, -, h3⟩ := hys
      have hpy := hprev y (by simp)
      rw [if_pos h1, hp] at hpy
      refine ⟨h1, hpy, ?_⟩
      rw [hnext y (by simp)]
      apply h3.congr
      intro z hz
      refine ⟨by rw [hnext z (by simp [hz]), if_neg (by simp)], ?_⟩
      rw [hprev z (by simp [hz]), if_neg]
      rw [h1]
      intro hyz
      simp only [nil_append, nodup_cons] at hnodup
      exact hnodup.2.1 (some.inj hyz ▸ hz)
  | cons x xs ih =>
    obtain ⟨h1, h2, h3⟩ := h
    rw [cons_append, nodup_cons] at hnodup
    -- the node in front of the gap is `x` or lies further behind
    have hxt : (page t).next ≠ some x := by
      rw [h3.next_eq.1]
      intro hx
      exact hnodup.1 (by simp [mem_of_head? hx])
    refine ⟨h1, ?_, ?_⟩
    · rw [hprev x (by simp), if_neg hxt, h2]
    · have hih := ih h3 hnodup.2
        (fun z hz => by
          rw [hnext z (by simp only [cons_append, mem_cons]; exact .inr hz)]
          rw [getLast?_cons]
          cases hl : xs.getLast? with
          | none =>
            have hzx : x ≠ z := fun e => hnodup.1 (by
              rw [mem_append] at hz ⊢
              rw [e]
              tauto)
            simp [hzx]
          | some w => rfl)
        (fun z hz => hprev z (by simp only [cons_append, mem_cons]; exact .inr hz))
      have hx := hnext x (by simp)
      rw [getLast?_cons] at hx
      cases xs with
      | nil =>
        rw [hx]
        simpa using hih
      | cons w ws =>
        rw [hx, if_neg]
        · exact hih
        · intro hl
          rw [getLast?_eq_some_getLast (by simp), getD_some] at hl
          have hm := getLast_mem (show w :: ws ≠ [] by simp)
          rw [some.inj hl] at hm
          exact hnodup.1 (mem_append_left _ hm)

section
variable {s : Pmm} {o i : ℕ} {f : Page → Page}

variable (s : Pmm)

@[simp] theorem modify_page (i j : ℕ) (f : Page → Page) :
    (s.modify i f).page j = if j = i then f (s.page i) else s.page j := by
  simp [modify, Function.update_apply]

@[simp] theorem modify_freeLists (i : ℕ) (f : Page → Page) :
    (s.modify i f).freeLists = s.freeLists := rfl

@[simp] theorem setHead_page (o : ℕ) (h : Option ℕ) : (s.setHead o h).page = s.page := rfl

@[simp] theorem setHead_freeLists (o j : ℕ) (h : Option ℕ) :
    (s.setHead o h).freeLists j = if j = o then h else s.freeLists j := by
  simp [setHead, Function.update_apply]

theorem modify_data {s : Pmm} {i : ℕ} {f : Page → Page} (hf : ∀ q, (f q).data = q.data) (x : ℕ) :
    ((s.modify i f).page x).data = (s.page x).data := by
  rw [modify_page]
  split_ifs with hx
  · rw [hf, hx]
  · rfl

theorem addToList_data (o node x : ℕ) :
    ((s.addToList o node).page x).data = (s.page x).data := by
  unfold addToList
  cases s.freeLists o with
  | none =>
    simp only [setHead_page]
    rw [modify_data]
    exact fun _ => rfl
  | some first =>
    simp only [setHead_page]
    rw [modify_data, modify_data] <;> exact fun _ => rfl

theorem removeFromList_data (o t x : ℕ) :
    ((s.removeFromList o t).page x).data = (s.page x).data := by
  unfold removeFromList
  cases (s.page t).next with
  | none =>
    cases (s.page t).prev with
    | none =>
      rw [modify_data, setHead_page]
      exact fun _ => rfl
    | some p =>
      rw [modify_data, modify_data] <;> exact fun _ => rfl
  | some n =>
    cases (s.page t).prev with
    | none =>
      rw [modify_data, modify_data, setHead_page] <;> exact fun _ => rfl
    | some p =>
      rw [modify_data, modify_data, modify_data] <;> exact fun _ => rfl

theorem addToList_spec (o node : ℕ) (hne : s.freeLists o ≠ some node) :
    (∀ j, (s.addToList o node).page j = ⟨if j = node then s.freeLists o else (s.page j).next,
        if j = node then none else if s.freeLists o = some j then some node else (s.page j).prev,
        (s.page j).refCount, (s.page j).order, (s.page j).isFree⟩) ∧
    (∀ j, (s.addToList o node).freeLists j = if j = o then some node else s.freeLists j) ∧
    (s.addToList o node).totalPages = s.totalPages := by
  unfold addToList
  cases hh : s.freeLists o with
  | none =>
    refine ⟨fun j => ?_, by simp, rfl⟩
    by_cases hj : j = node <;> simp [hj]
  | some first =>
    rw [hh] at hne
    have hfn : first ≠ node := fun e => hne (by rw [e])
    refine ⟨fun j => ?_, by simp, rfl⟩
    by_cases hj : j = node
    · subst hj
      simp [hfn.symm]
    · by_cases hjf : j = first
      · subst hjf
        simp [hj]
      · simp [hj, hjf, Ne.symm hjf]

theorem removeFromList_spec (o t : ℕ) (hp : (s.page t).prev ≠ some t)
    (hn : (s.page t).next ≠ some t)
    (hne : ∀ j, (s.page t).prev = some j → (s.page t).next ≠ some j) :
    (∀ j, (s.removeFromList o t).page j = ⟨if j = t then none else
          if (s.page t).prev = some j then (s.page t).next else (s.page j).next,
        if j = t then none else
          if (s.page t).next = some j then (s.page t).prev else (s.page j).prev,
        (s.page j).refCount, (s.page j).order, (s.page j).isFree⟩) ∧
    (∀ j, (s.removeFromList o t).freeLists j =
      if j = o ∧ (s.page t).prev = none then (s.page t).next else s.freeLists j) ∧
    (s.removeFromList o t).totalPages = s.totalPages := by
  unfold removeFromList
  cases hpv : (s.page t).prev with
  | none =>
    cases hnx : (s.page t).next with
    | none =>
      refine ⟨fun j => ?_, by simp, rfl⟩
      by_cases hj : j = t <;> simp [hj]
    | some n =>
      have hnt : n ≠ t := fun e => hn (by rw [hnx, e])
      refine ⟨fun j => ?_, by simp, rfl⟩
      by_cases hj : j = t
      · subst hj
        simp [hnt.symm]
      · by_cases hjn : j = n
        · subst hjn
          simp [hj]
        · simp [hj, hjn, Ne.symm hjn]
  | some p =>
    have hpt : p ≠ t := fun e => hp (by rw [hpv, e])
    cases hnx : (s.page t).next with
    | none =>
      refine ⟨fun j => ?_, by simp, rfl⟩
      by_cases hj : j = t
      · subst hj
        simp [hpt.symm]
      · by_cases hjp : j = p
        · subst hjp
          simp [hj]
        · simp [hj, hjp, Ne.symm hjp]
    | some n =>
      have hnt : n ≠ t := fun e => hn (by rw [hnx, e])
      have hpn : p ≠ n := fun e => hne p hpv (by rw [hnx, e])
      refine ⟨fun j => ?_, by simp, rfl⟩
      by_cases hj : j = t
      · subst hj
        simp [hnt.symm, hpt.symm]
      · by_cases hjp : j = p
        · subst hjp
          simp [hj, hpn, hpn.symm]
        · by_cases hjn : j = n
          · subst hjn
            simp [hj, hjp, Ne.symm hjp]
          · simp [hj, hjp, hjn, Ne.symm hjp, Ne.symm hjn]

end

end Pmm
end Doppio
