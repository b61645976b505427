import Doppio.Library.LinkedQueue
import Doppio.Misc.Rcu

/-! The lists of `kernel/misc/rcu.c`: heads linked through `next`, with a step for each section
under `rcu_state.lock` and each callback. -/
namespace Doppio.Rcu
open LinkedQueue List

variable {β γ : Type*}

/-- The pointers of `rcu_state` and the `batch` of each handler, with the heads passed to `call_rcu`
and those invoked. -/
structure Lists (β : Type*) where
  next : β → Option β
  pending : Ends β
  done : Ends β
  batches : List (Option β)
  passed : List β
  invoked : List β

namespace Lists

def init : Lists β := ⟨fun _ => none, ⟨none, none⟩, ⟨none, none⟩, [], [], []⟩

/-- The locked part of `rcu_softirq_handler`. -/
def takeBatch (p : Lists β) : Lists β :=
  { p with
    done := if p.done.head.isSome then ⟨none, none⟩ else p.done
    batches := p.batches ++ [p.done.head] }

/-- One turn of the loop of `rcu_softirq_handler`; `next` is read before the callback. -/
def invoke (p : Lists β) (i : ℕ) : Option (Lists β) :=
  match p.batches[i]? with
  | some (some b) => some { p with
      batches := p.batches.set i (p.next b), invoked := p.invoked ++ [b] }
  | _ => none

def queued (r : Rcu β γ) (bs : List (List β)) : List β := r.pending ++ (r.done ++ bs.flatten)

/-- The pointers show the lists of `r` and the rest of each batch. No head is in two places, and
each one passed was invoked or is in one of them. -/
structure Shows (p : Lists β) (r : Rcu β γ) (bs : List (List β)) : Prop where
  pending : IsQueue p.next p.pending r.pending
  done : IsQueue p.next p.done r.done
  batches : List.Forall₂ (Linked p.next) p.batches bs
  nodup : (queued r bs).Nodup
  perm : p.passed.Perm (p.invoked ++ queued r bs)

variable {p : Lists β} {r : Rcu β γ} {bs : List (List β)} {heads : List (Option β)}

theorem linked_congr {next next' : β → Option β}
    (h : Forall₂ (Linked next) heads bs) (he : ∀ b ∈ bs.flatten, next' b = next b) :
    Forall₂ (Linked next') heads bs := by
  induction h with
  | nil => exact .nil
  | cons h _ ih =>
    simp only [flatten_cons, mem_append] at he
    exact .cons (h.congr fun b hb => he b (.inl hb)) (ih fun b hb => he b (.inr hb))

theorem Shows.takeBatch (h : Shows p r bs) :
    Shows p.takeBatch r.takeBatch.2 (bs ++ [r.takeBatch.1]) := by
  have hperm : (queued r.takeBatch.2 (bs ++ [r.takeBatch.1])).Perm (queued r bs) := by
    have hcomm : (bs.flatten ++ r.done).Perm (r.done ++ bs.flatten) := perm_append_comm
    simpa [queued, Rcu.takeBatch] using hcomm.append_left r.pending
  refine ⟨h.pending, ?_, rel_append h.batches (.cons h.done.linked .nil),
    hperm.nodup_iff.mpr h.nodup, h.perm.trans (hperm.symm.append_left p.invoked)⟩
  unfold Lists.takeBatch
  split_ifs with hhead
  · exact isQueue_nil _
  · have hnil : r.done = [] := not_not.mp fun hne => hhead (h.done.head_isSome.mpr hne)
    have hdone := h.done
    rw [hnil] at hdone
    exact hdone

theorem linked_set {next : β → Option β} {i : ℕ} {b : β}
    (h : Forall₂ (Linked next) heads bs) (hi : heads[i]? = some (some b)) :
    ∃ bs', Forall₂ (Linked next) (heads.set i (next b)) bs' ∧
      bs.flatten.Perm (b :: bs'.flatten) := by
  induction h generalizing i with
  | nil => simp at hi
  | @cons head l heads bs hl hrest ih =>
    cases i with
    | zero =>
      obtain rfl : head = some b := by simpa using hi
      cases l with
      | nil => cases hl
      | cons c l =>
        obtain ⟨hc, hl⟩ := hl
        cases hc
        exact ⟨l :: bs, .cons hl hrest, .refl _⟩
    | succ i =>
      obtain ⟨bs', h', hperm⟩ := ih (by simpa using hi)
      exact ⟨l :: bs', .cons hl h', (hperm.append_left l).trans perm_middle⟩

theorem Shows.invoke (h : Shows p r bs) {p' : Lists β} {i : ℕ} (hp : p.invoke i = some p') :
    ∃ bs', Shows p' r bs' := by
  unfold Lists.invoke at hp
  split at hp
  case h_2 => cases hp
  case h_1 b hi =>
    cases hp
    obtain ⟨bs', h', hflat⟩ := linked_set h.batches hi
    have hperm : (queued r bs).Perm (b :: queued r bs') := by
      refine ((hflat.append_left r.done).append_left r.pending).trans ?_
      exact (perm_middle.append_left r.pending).trans perm_middle
    have hnodup := h.nodup
    rw [hperm.nodup_iff, nodup_cons] at hnodup
    refine ⟨bs', h.pending, h.done, h', hnodup.2, h.perm.trans ?_⟩
    simpa using hperm.append_left p.invoked

variable [DecidableEq β]

section
variable (p : Lists β)

def callRcu (b : β) : Lists β :=
  let q := pushBack p.next p.pending b
  { p with next := q.1, pending := q.2, passed := p.passed ++ [b] }

/-- The locked part of `rcu_report_qs`. -/
def finish : Lists β :=
  if p.pending.head.isSome then
    let q := splice p.next p.done p.pending
    { p with next := q.1, pending := ⟨none, none⟩, done := q.2 }
  else p

/-- A head is passed again only after its callback. -/
def step : Event β γ → Option (Lists β)
  | .callRcu b => if p.passed.count b = p.invoked.count b then some (p.callRcu b) else none
  | .finish _ => some p.finish
  | .takeBatch => some p.takeBatch
  | .invoke i => p.invoke i
  | .readLock _ | .readUnlock _ | .clearQs _ | .countDown _ => some p

def Next (e : Event β γ) (p' : Lists β) : Prop := p.step e = some p'

end

theorem Shows.callRcu [Fintype γ] (h : Shows p r bs) {b : β} (hb : b ∉ queued r bs) :
    Shows (p.callRcu b) (r.callRcu b) bs := by
  have hr : (r.callRcu b).pending = r.pending ++ [b] ∧ (r.callRcu b).done = r.done := by
    by_cases hgp : r.gpActive <;> simp [Rcu.callRcu, hgp]
  have hd := (nodup_append.mp h.nodup).2.2
  have hnot := hb
  simp only [queued, mem_append, not_or] at hnot
  have hkeep (u : β) (hu : u ∈ r.done ++ bs.flatten) : (p.callRcu b).next u = p.next u := by
    refine h.pending.pushBack_next hnot.1 (fun hp => hd u hp u hu rfl) ?_
    rintro rfl
    simp [hnot] at hu
  have hmid : (queued (r.callRcu b) bs).Perm (b :: queued r bs) := by
    simp [queued, hr]
  refine ⟨?_, ?_, ?_, ?_, ?_⟩
  · rw [hr.1]
    exact h.pending.pushBack hnot.1
  · rw [hr.2]
    exact h.done.congr fun u hu => hkeep u (mem_append_left _ hu)
  · exact linked_congr h.batches fun u hu => hkeep u (mem_append_right _ hu)
  · rw [hmid.nodup_iff, nodup_cons]
    exact ⟨hb, h.nodup⟩
  · refine Perm.trans ?_ (hmid.symm.append_left p.invoked)
    exact (perm_append_singleton b p.passed).trans ((h.perm.cons b).trans perm_middle.symm)

theorem Shows.finish (h : Shows p r bs) : Shows p.finish r.finish bs := by
  have hnodup := nodup_append.mp h.nodup
  have hperm : (queued r.finish bs).Perm (queued r bs) := by
    have hcomm : (r.done ++ r.pending).Perm (r.pending ++ r.done) := perm_append_comm
    simpa [queued, Rcu.finish] using hcomm.append_right bs.flatten
  have hperm' := h.perm.trans (hperm.symm.append_left p.invoked)
  unfold Lists.finish
  split_ifs with hhead
  · have hne := h.pending.head_isSome.mp hhead
    refine ⟨isQueue_nil _, h.done.splice h.pending hne fun u hu hu' => ?_,
      linked_congr h.batches fun u hu => h.done.splice_next fun hu' => ?_,
      hperm.nodup_iff.mpr h.nodup, hperm'⟩
    · exact hnodup.2.2 u hu' u (mem_append_left _ hu) rfl
    · exact (nodup_append.mp hnodup.2.1).2.2 u hu' u hu rfl
  · have hnil : r.pending = [] := not_not.mp fun hne => hhead (h.pending.head_isSome.mpr hne)
    have hdone : r.finish.done = r.done := by simp [Rcu.finish, hnil]
    have hpending := h.pending
    rw [hnil] at hpending
    exact ⟨hpending, hdone ▸ h.done, h.batches, hperm.nodup_iff.mpr h.nodup, hperm'⟩

theorem Shows.step [Fintype γ] (h : Shows p r bs) {p' : Lists β} {e : Event β γ}
    (hp : p.step e = some p') : ∃ (r' : Rcu β γ) (bs' : List (List β)), Shows p' r' bs' := by
  cases e with
  | callRcu b =>
    obtain ⟨hcount, hp⟩ := Option.ite_none_right_eq_some.mp hp
    cases hp
    refine ⟨_, _, h.callRcu (count_eq_zero.mp ?_)⟩
    have := h.perm.count_eq b
    rw [count_append] at this
    omega
  | finish c =>
    cases hp
    exact ⟨_, _, h.finish⟩
  | takeBatch =>
    cases hp
    exact ⟨_, _, h.takeBatch⟩
  | invoke i => exact ⟨r, h.invoke hp⟩
  | readLock c | readUnlock c | clearQs c | countDown c =>
    cases hp
    exact ⟨r, bs, h⟩

/-- The two lists are acyclic and end in their tails, and each head passed and not yet invoked is in
just one of them or in the rest of just one batch. -/
theorem reaches_shows [Fintype γ] {p : Lists β}
    (h : Run.Reaches (Next (γ := γ)) (fun _ _ => True) init p) :
    ∃ (r : Rcu β γ) (bs : List (List β)), Shows p r bs := by
  apply h.invariant (I := fun p => ∃ (r : Rcu β γ) (bs : List (List β)), Shows p r bs)
  · rintro p e p' ⟨r, bs, hshows⟩ - hp
    exact hshows.step hp
  · exact ⟨Rcu.init, [], isQueue_nil _, isQueue_nil _, .nil, nodup_nil, .refl _⟩

theorem reaches_shows_everywhere : ∃ p : Lists (Fin 4),
    Run.Reaches (Next (γ := Fin 2)) (fun _ _ => True) init p ∧ p.invoked = [0] ∧
      p.batches = [some 1] ∧ p.done.head = some 2 ∧ p.pending.tail = some 3 ∧
      ∃ (r : Rcu (Fin 4) (Fin 2)) (bs : List (List (Fin 4))), Shows p r bs := by
  obtain ⟨p, hp, heq⟩ : ∃ p ∈ [Event.callRcu (0 : Fin 4), .callRcu 1, .finish (0 : Fin 2), .takeBatch,
      .callRcu 2, .finish 1, .invoke 0, .callRcu 3].foldlM Lists.step init, p.invoked = [0] ∧
      p.batches = [some 1] ∧ p.done.head = some 2 ∧ p.pending.tail = some 3 := by
    decide +kernel
  have hreach := Run.reaches_of_foldlM hp
  exact ⟨p, hreach, heq.1, heq.2.1, heq.2.2.1, heq.2.2.2, reaches_shows hreach⟩

end Lists
end Doppio.Rcu
