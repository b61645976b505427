import Mathlib.Tactic

/-! Singly linked queues with pointers to the first and the last node. The links are one function
over all nodes, shared by several queues. -/
namespace LinkedQueue
open Function
open List

variable {τ : Type*}

/-- `next` from `head` meets the nodes of the list, then null. -/
def Linked (next : τ → Option τ) : Option τ → List τ → Prop
  | head, [] => head = none
  | head, t :: ts => head = some t ∧ Linked next (next t) ts

structure Ends (τ : Type*) where
  head : Option τ
  tail : Option τ

/-- An acyclic list that ends in null, and `tail` is its last node. -/
structure IsQueue (next : τ → Option τ) (q : Ends τ) (l : List τ) : Prop where
  linked : Linked next q.head l
  tail_eq : q.tail = l.getLast?
  nodup : l.Nodup

variable {next : τ → Option τ} {q : Ends τ} {l : List τ} {head : Option τ}

theorem Linked.congr {next next' : τ → Option τ}
    (h : Linked next head l) (he : ∀ t ∈ l, next' t = next t) : Linked next' head l := by
  induction l generalizing head with
  | nil => exact h
  | cons t l ih =>
    refine ⟨h.1, ?_⟩
    rw [he t mem_cons_self]
    exact ih h.2 fun u hu => he u (mem_cons_of_mem t hu)

theorem linked_range' {node : ℕ → τ} {j n : ℕ} (h : ∀ i, j ≤ i → i < j + n →
      next (node i) = if i + 1 < j + n then some (node (i + 1)) else none) :
    Linked next (if n = 0 then none else some (node j)) ((range' j n).map node) := by
  induction n generalizing j with
  | zero => rfl
  | succ n ih =>
    refine ⟨if_neg (by omega), ?_⟩
    have hj : next (node j) = if n = 0 then none else some (node (j + 1)) := by
      rw [h j le_rfl (by omega)]
      split_ifs <;> first | rfl | omega
    rw [hj]
    apply ih
    intro i hi hin
    rw [h i (by omega) (by omega), show j + (n + 1) = j + 1 + n by omega]

theorem IsQueue.congr {next next' : τ → Option τ}
    (h : IsQueue next q l) (he : ∀ t ∈ l, next' t = next t) : IsQueue next' q l :=
  ⟨h.linked.congr he, h.tail_eq, h.nodup⟩

theorem isQueue_nil (next : τ → Option τ) : IsQueue next ⟨none, none⟩ [] :=
  ⟨rfl, rfl, nodup_nil⟩

theorem IsQueue.head_isSome (h : IsQueue next q l) : q.head.isSome ↔ l ≠ [] := by
  have hlinked := h.linked
  cases l with
  | nil => simp [show q.head = none from hlinked]
  | cons t l => simp [hlinked.1]

theorem Linked.mem_iff (h : Linked next head l)
    (t : τ) : t ∈ l ↔ ∃ u, head = some u ∧ Relation.ReflTransGen (fun a b => next a = some b) u t := by
  induction l generalizing head with
  | nil =>
    rw [show head = none from h]
    simp
  | cons u l ih =>
    obtain ⟨rfl, hl⟩ := h
    rw [mem_cons, ih hl]
    constructor
    · rintro (rfl | ⟨v, hv, hr⟩)
      · exact ⟨t, rfl, .refl⟩
      · exact ⟨u, rfl, .head hv hr⟩
    · rintro ⟨v, hv, hr⟩
      cases hv
      rcases hr.cases_head with rfl | ⟨w, hw, hr⟩
      · exact .inl rfl
      · exact .inr ⟨w, hw, hr⟩

variable [DecidableEq τ]

/-- The queue `r` is linked behind the last node of `q`. -/
def splice (next : τ → Option τ) (q r : Ends τ) : (τ → Option τ) × Ends τ :=
  match q.tail with
  | some e => (update next e r.head, ⟨q.head, r.tail⟩)
  | none => (next, r)

/-- Unlinked first, then linked behind the last node. -/
def pushBack (next : τ → Option τ) (q : Ends τ) (t : τ) : (τ → Option τ) × Ends τ :=
  let next := update next t none
  match q.tail with
  | some e => (update next e (some t), { q with tail := some t })
  | none => (next, ⟨some t, some t⟩)

/-- The first node, unlinked; `tail` is cleared with the last one. -/
def popFront (next : τ → Option τ) (q : Ends τ) : Option (τ × (τ → Option τ) × Ends τ) :=
  match q.head with
  | none => none
  | some t =>
    some (t, update next t none, ⟨next t, if (next t).isNone then none else q.tail⟩)

theorem Linked.append {head' : Option τ} {e : τ} {m : List τ}
    (h : Linked next head (l ++ [e])) (h' : Linked next head' m) (hnodup : (l ++ [e]).Nodup)
    (he : e ∉ m) : Linked (update next e head') head (l ++ [e] ++ m) := by
  induction l generalizing head with
  | nil =>
    refine ⟨h.1, ?_⟩
    rw [update_self]
    refine h'.congr fun u hu => update_of_ne ?_ _ _
    rintro rfl
    exact he hu
  | cons u l ih =>
    simp only [cons_append, nodup_cons] at hnodup
    have hue : u ≠ e := by
      rintro rfl
      exact hnodup.1 (by simp)
    refine ⟨h.1, ?_⟩
    rw [update_of_ne hue]
    exact ih h.2 hnodup.2

variable {t : τ}

section
variable (h : IsQueue next q l)
include h

theorem IsQueue.splice {r : Ends τ} {m : List τ} (h' : IsQueue next r m)
    (hne : m ≠ []) (hd : l.Disjoint m) :
    IsQueue (splice next q r).1 (splice next q r).2 (l ++ m) := by
  unfold LinkedQueue.splice
  rcases eq_nil_or_concat l with rfl | ⟨l, e, rfl⟩
  · have htail : q.tail = none := h.tail_eq
    rw [htail]
    exact h'
  · rw [concat_eq_append] at *
    have htail : q.tail = some e := by simpa using h.tail_eq
    rw [htail]
    refine ⟨h.linked.append h'.linked h.nodup fun he => hd (by simp) he, ?_, h.nodup.append h'.nodup hd⟩
    rw [getLast?_append_of_ne_nil _ hne]
    exact h'.tail_eq

theorem IsQueue.splice_next {r : Ends τ} {u : τ} (hu : u ∉ l) :
    (LinkedQueue.splice next q r).1 u = next u := by
  unfold LinkedQueue.splice
  cases htail : q.tail with
  | none => rfl
  | some e =>
    apply update_of_ne
    rintro rfl
    exact hu (mem_of_getLast? (h.tail_eq ▸ htail))

theorem IsQueue.unlinked (ht : t ∉ l) :
    IsQueue (update next t none) q l := by
  refine h.congr fun u hu => update_of_ne ?_ _ _
  rintro rfl
  exact ht hu

theorem IsQueue.pushBack (ht : t ∉ l) :
    IsQueue (pushBack next q t).1 (pushBack next q t).2 (l ++ [t]) := by
  have hone : IsQueue (update next t none) ⟨some t, some t⟩ [t] :=
    ⟨⟨rfl, update_self ..⟩, rfl, nodup_singleton t⟩
  exact (h.unlinked ht).splice hone (by simp) (disjoint_singleton.mpr ht)

end

theorem pushBack_eq (next : τ → Option τ) (q : Ends τ) (t : τ) :
    pushBack next q t = splice (update next t none) q ⟨some t, some t⟩ := rfl

theorem IsQueue.pushBack_next {u : τ} (h : IsQueue next q l) (ht : t ∉ l) (hu : u ∉ l)
    (hut : u ≠ t) : (LinkedQueue.pushBack next q t).1 u = next u := by
  rw [pushBack_eq, (h.unlinked ht).splice_next hu, update_of_ne hut]

theorem IsQueue.popFront_nil (h : IsQueue next q []) :
    popFront next q = none := by
  have hhead : q.head = none := h.linked
  simp [popFront, hhead]

theorem IsQueue.popFront_cons (h : IsQueue next q (t :: l)) :
    ∃ q', popFront next q = some (t, update next t none, q') ∧
      IsQueue (update next t none) q' l := by
  obtain ⟨hhead, hlinked⟩ := h.linked
  have hnodup := nodup_cons.mp h.nodup
  refine ⟨⟨next t, if (next t).isNone then none else q.tail⟩, by simp [popFront, hhead], ?_⟩
  have hkeep : ∀ u ∈ l, update next t none u = next u := by
    intro u hu
    apply update_of_ne
    rintro rfl
    exact hnodup.1 hu
  refine ⟨hlinked.congr hkeep, ?_, hnodup.2⟩
  cases l with
  | nil =>
    have hnext : next t = none := hlinked
    simp [hnext]
  | cons u l =>
    rw [hlinked.1, h.tail_eq]
    simp

theorem pushBack_unlinked (next : τ → Option τ) (q : Ends τ) (t : τ) :
    pushBack (update next t none) q t = pushBack next q t := by
  simp [pushBack]

section family
variable {ι : Type*}

/-- Queues with no node in common. -/
structure Family (next : τ → Option τ) (qs : ι → Ends τ) (f : ι → List τ) : Prop where
  queue : ∀ i, IsQueue next (qs i) (f i)
  apart : ∀ i j t, t ∈ f i → t ∈ f j → i = j

variable [DecidableEq ι]

variable {qs : ι → Ends τ} {f : ι → List τ}

theorem Family.push (h : Family next qs f) (ht : ∀ i, t ∉ f i) (i : ι) :
    Family (pushBack next (qs i) t).1 (update qs i (pushBack next (qs i) t).2)
      (update f i (f i ++ [t])) := by
  have hmem : ∀ j u, u ∈ update f i (f i ++ [t]) j → u ∈ f j ∨ u = t ∧ j = i := by
    intro j u hu
    by_cases hji : j = i
    · subst hji
      simpa [or_comm] using hu
    · rw [update_of_ne hji] at hu
      exact .inl hu
  refine ⟨fun j => ?_, fun j k u hj hk => ?_⟩
  · by_cases hji : j = i
    · subst hji
      simpa using (h.queue j).pushBack (ht j)
    · rw [update_of_ne hji, update_of_ne hji]
      refine (h.queue j).congr fun u hu => (h.queue i).pushBack_next (ht i) ?_ ?_
      · exact fun hui => hji (h.apart j i u hu hui)
      · rintro rfl
        exact ht j hu
  · rcases hmem j u hj with hj | ⟨rfl, hji⟩ <;> rcases hmem k u hk with hk | ⟨hu, hki⟩
    · exact h.apart j k u hj hk
    · exact absurd (hu ▸ hj) (ht j)
    · exact absurd hk (ht k)
    · exact hji.trans hki.symm

theorem Family.pop (h : Family next qs f) {i : ι} (hi : f i = t :: l) :
    ∃ q, popFront next (qs i) = some (t, update next t none, q) ∧
      Family (update next t none) (update qs i q) (update f i l) := by
  have hqueue := h.queue i
  rw [hi] at hqueue
  obtain ⟨q, hpop, hq⟩ := hqueue.popFront_cons
  have hsub : ∀ j u, u ∈ update f i l j → u ∈ f j := by
    intro j u hu
    by_cases hji : j = i
    · subst hji
      rw [hi]
      exact mem_cons_of_mem t (by simpa using hu)
    · rwa [update_of_ne hji] at hu
  refine ⟨q, hpop, fun j => ?_, fun j k u hj hk => h.apart j k u (hsub j u hj) (hsub k u hk)⟩
  by_cases hji : j = i
  · subst hji
    simpa using hq
  · rw [update_of_ne hji, update_of_ne hji]
    refine (h.queue j).congr fun u hu => update_of_ne ?_ _ _
    rintro rfl
    exact hji (h.apart j i u hu (hi ▸ mem_cons_self))

omit [DecidableEq τ] in
theorem Family.popped (h : Family next qs f) {i : ι} (hi : f i = t :: l) (j : ι) :
    t ∉ update f i l j := by
  have hmem : t ∈ f i := hi ▸ mem_cons_self
  have hnodup := (h.queue i).nodup
  rw [hi, nodup_cons] at hnodup
  by_cases hji : j = i
  · subst hji
    simpa using hnodup.1
  · rw [update_of_ne hji]
    exact fun hj => hji (h.apart j i t hj hmem)

end family
end LinkedQueue
