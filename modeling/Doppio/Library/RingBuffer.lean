import Mathlib.Tactic

/-! A ring of `n` cells with a read index, a write index and a fill count, seen as a first-in
first-out list; and a ring without the count, which keeps one cell free. -/

structure RingBuffer (n : ℕ) (α : Type*) where
  buf : ℕ → α
  head : ℕ
  tail : ℕ
  size : ℕ

namespace RingBuffer
open List Nat Function

variable {n : ℕ} {α : Type*}

section
variable (r : RingBuffer n α)

def push (x : α) : RingBuffer n α :=
  { r with
    buf := Function.update r.buf r.tail x
    tail := (r.tail + 1) % n
    size := r.size + 1 }

def pop : RingBuffer n α :=
  { r with head := (r.head + 1) % n, size := r.size - 1 }

def pushAll (xs : List α) : RingBuffer n α := xs.foldl push r

/-- What `k` pops take out, oldest first, and the ring left. -/
def popMany (r : RingBuffer n α) : ℕ → List α × RingBuffer n α
  | 0 => ([], r)
  | k + 1 =>
    let rest := r.pop.popMany k
    (r.buf r.head :: rest.1, rest.2)

def contents : List α :=
  (List.range r.size).map fun i => r.buf ((r.head + i) % n)

/-- The counters describe one arc of the ring. -/
structure Valid : Prop where
  size_le : r.size ≤ n
  head_lt : r.head < n
  tail_eq : r.tail = (r.head + r.size) % n

@[simp] theorem length_contents : r.contents.length = r.size := by
  simp [contents]

end

theorem valid_empty (buf : ℕ → α) (hn : 0 < n) : (⟨buf, 0, 0, 0⟩ : RingBuffer n α).Valid :=
  ⟨Nat.zero_le n, hn, (zero_mod n).symm⟩

variable {r : RingBuffer n α}

theorem offset_injective {a i j : ℕ} (hi : i < n) (hj : j < n)
    (h : (a + i) % n = (a + j) % n) : i = j := by
  have hmod : i ≡ j [MOD n] := Nat.ModEq.add_left_cancel' a h
  rwa [Nat.ModEq, Nat.mod_eq_of_lt hi, Nat.mod_eq_of_lt hj] at hmod

section
variable (h : r.Valid)
include h

theorem Valid.push (hlt : r.size < n) (x : α) :
    (r.push x).Valid := by
  refine ⟨hlt, h.head_lt, ?_⟩
  show (r.tail + 1) % n = (r.head + (r.size + 1)) % n
  rw [h.tail_eq, mod_add_mod, Nat.add_assoc]

theorem Valid.pop (hpos : 0 < r.size) : r.pop.Valid := by
  refine ⟨(sub_le _ _).trans h.size_le, Nat.mod_lt _ (h.head_lt.pos), ?_⟩
  show r.tail = ((r.head + 1) % n + (r.size - 1)) % n
  rw [h.tail_eq, mod_add_mod]
  congr 1
  omega

theorem contents_push (hlt : r.size < n) (x : α) :
    (r.push x).contents = r.contents ++ [x] := by
  have hkeep : ∀ i ∈ List.range r.size,
      update r.buf r.tail x ((r.head + i) % n) = r.buf ((r.head + i) % n) := by
    intro i hi
    rw [mem_range] at hi
    apply update_of_ne
    rw [h.tail_eq]
    intro heq
    have := offset_injective (hi.trans hlt) hlt heq
    omega
  simp only [contents, push, range_succ, map_append, map_cons, map_nil, map_congr_left hkeep]
  rw [← h.tail_eq, update_self]

theorem contents_eq_cons (hpos : 0 < r.size) :
    r.contents = r.buf r.head :: r.pop.contents := by
  obtain ⟨k, hk⟩ := Nat.exists_eq_add_of_lt hpos
  simp only [contents, pop, hk, range_succ_eq_map, map_cons, map_map,
    Nat.add_zero, Nat.mod_eq_of_lt h.head_lt]
  congr 1
  apply map_congr_left
  intro i _
  simp only [comp, mod_add_mod]
  congr 2
  omega

theorem pushAll_spec (xs : List α) (hfit : r.size + xs.length ≤ n) :
    (r.pushAll xs).Valid ∧ (r.pushAll xs).contents = r.contents ++ xs := by
  induction xs generalizing r with
  | nil => exact ⟨h, (append_nil _).symm⟩
  | cons x xs ih =>
    rw [length_cons] at hfit
    have hlt : r.size < n := by omega
    have hsize : (r.push x).size = r.size + 1 := rfl
    obtain ⟨hvalid, hcontents⟩ := ih (h.push hlt x) (by omega)
    refine ⟨hvalid, ?_⟩
    rw [contents_push h hlt, append_assoc] at hcontents
    exact hcontents

theorem popMany_spec (k : ℕ) (hk : k ≤ r.size) :
    (r.popMany k).2.Valid ∧ r.contents = (r.popMany k).1 ++ (r.popMany k).2.contents := by
  induction k generalizing r with
  | zero => exact ⟨h, rfl⟩
  | succ k ih =>
    have hpos : 0 < r.size := by omega
    have hsize : r.pop.size = r.size - 1 := rfl
    obtain ⟨hvalid, hcontents⟩ := ih (h.pop hpos) (by omega)
    refine ⟨hvalid, ?_⟩
    rw [contents_eq_cons h hpos, hcontents]
    rfl

end

theorem contents_eq_append {k : ℕ} (hk : k ≤ r.size) :
    r.contents = (List.range k).map (fun i => r.buf ((r.head + i) % n)) ++
      ({ r with head := (r.head + k) % n, size := r.size - k } : RingBuffer n α).contents := by
  have hsize : r.size = k + (r.size - k) := by omega
  simp only [contents]
  nth_rewrite 1 [hsize]
  rw [range_add, map_append, map_map]
  congr 1
  apply map_congr_left
  intro i _
  simp only [comp, mod_add_mod, Nat.add_assoc]

end RingBuffer

/-- The cells and the two indices; the ring is empty where they meet. -/
structure GapRing (n : ℕ) (α : Type*) where
  buf : ℕ → α
  head : ℕ
  tail : ℕ

namespace GapRing
variable {n : ℕ} {α : Type*} {r : GapRing n α}

def count (r : GapRing n α) : ℕ := (r.tail + n - r.head) % n

def ring (r : GapRing n α) : RingBuffer n α := ⟨r.buf, r.head, r.tail, r.count⟩

def full (r : GapRing n α) : Prop := (r.tail + 1) % n = r.head

instance : Decidable r.full := inferInstanceAs (Decidable (_ = _))

section
variable (r : GapRing n α)

def store (x : α) : GapRing n α :=
  { r with buf := Function.update r.buf r.tail x, tail := (r.tail + 1) % n }

def peek (k : ℕ) : List α :=
  (List.range k).map fun i => r.buf ((r.head + i) % n)

def advance (k : ℕ) : GapRing n α := { r with head := (r.head + k) % n }

def contents (r : GapRing n α) : List α := r.ring.contents

structure Valid : Prop where
  head_lt : r.head < n
  tail_lt : r.tail < n

end

theorem length_contents (r : GapRing n α) : r.contents.length = r.count :=
  RingBuffer.length_contents r.ring

@[simp] theorem length_peek (k : ℕ) : (r.peek k).length = k := by simp [peek]

section
variable (h : r.Valid)
include h

theorem count_eq :
    r.count = if r.head ≤ r.tail then r.tail - r.head else r.tail + n - r.head := by
  have ht := h.tail_lt
  unfold count
  split_ifs with hle
  · rw [show r.tail + n - r.head = r.tail - r.head + n by omega, Nat.add_mod_right,
      Nat.mod_eq_of_lt (by omega)]
  · exact Nat.mod_eq_of_lt (by omega)

theorem Valid.ring : r.ring.Valid := by
  have hh := h.head_lt
  have ht := h.tail_lt
  have hc := count_eq h
  refine ⟨?_, hh, ?_⟩
  · show r.count ≤ n
    split_ifs at hc <;> omega
  · show r.tail = (r.head + r.count) % n
    split_ifs at hc with hle
    · rw [hc, Nat.add_sub_cancel' hle, Nat.mod_eq_of_lt ht]
    · rw [hc, show r.head + (r.tail + n - r.head) = r.tail + n by omega, Nat.add_mod_right,
        Nat.mod_eq_of_lt ht]

theorem count_eq_zero_iff : r.count = 0 ↔ r.head = r.tail := by
  have hh := h.head_lt
  have hc := count_eq h
  split_ifs at hc <;> omega

theorem count_lt : r.count < n := Nat.mod_lt _ h.head_lt.pos

theorem Valid.store (x : α) : (r.store x).Valid :=
  ⟨h.head_lt, Nat.mod_lt _ h.head_lt.pos⟩

theorem Valid.advance (k : ℕ) : (r.advance k).Valid :=
  ⟨Nat.mod_lt _ h.head_lt.pos, h.tail_lt⟩

theorem succ_tail_mod :
    (r.tail + 1) % n = if r.tail + 1 = n then 0 else r.tail + 1 := by
  have ht := h.tail_lt
  split_ifs with heq
  · rw [heq, Nat.mod_self]
  · exact Nat.mod_eq_of_lt (by omega)

theorem full_iff : r.full ↔ r.count + 1 = n := by
  have hh := h.head_lt
  have ht := h.tail_lt
  have hc := count_eq h
  unfold full
  rw [succ_tail_mod h]
  split_ifs at hc ⊢ <;> omega

theorem count_store (hfull : ¬r.full) (x : α) :
    (r.store x).count = r.count + 1 := by
  have hh := h.head_lt
  have hc := count_eq h
  have hc' := count_eq (h.store x)
  have hs := succ_tail_mod h
  unfold full at hfull
  have hhead : (r.store x).head = r.head := rfl
  have htail : (r.store x).tail = (r.tail + 1) % n := rfl
  rw [htail, hs] at hc'
  rw [hs] at hfull
  split_ifs at hc hc' hfull <;> omega

theorem contents_store (hfull : ¬r.full) (x : α) :
    (r.store x).contents = r.contents ++ [x] := by
  have hring : (r.store x).ring = r.ring.push x := by
    show RingBuffer.mk _ _ _ _ = RingBuffer.mk _ _ _ _
    rw [count_store h hfull]
    rfl
  have hlt : r.ring.size < n := count_lt h
  rw [contents, hring, RingBuffer.contents_push h.ring hlt]
  rfl

theorem count_advance {k : ℕ} (hk : k ≤ r.count) :
    (r.advance k).count = r.count - k := by
  have hh := h.head_lt
  have ht := h.tail_lt
  have hlt := count_lt h
  have hc := count_eq h
  have hc' := count_eq (h.advance k)
  have hhead : (r.advance k).head = if r.head + k < n then r.head + k else r.head + k - n := by
    show (r.head + k) % n = _
    split_ifs with hlt'
    · exact Nat.mod_eq_of_lt hlt'
    · rw [Nat.mod_eq_sub_mod (by omega), Nat.mod_eq_of_lt (by omega)]
  have htail : (r.advance k).tail = r.tail := rfl
  rw [hhead] at hc'
  split_ifs at hc hc' <;> omega

theorem contents_eq_peek_append {k : ℕ} (hk : k ≤ r.count) :
    r.contents = r.peek k ++ (r.advance k).contents := by
  have hring : (r.advance k).ring =
      { r.ring with head := (r.head + k) % n, size := r.count - k } := by
    show RingBuffer.mk _ _ _ _ = RingBuffer.mk _ _ _ _
    rw [count_advance h hk]
    rfl
  rw [contents, contents, hring]
  exact RingBuffer.contents_eq_append (r := r.ring) hk

theorem contents_eq_cons (hne : r.head ≠ r.tail) :
    r.contents = r.buf r.head :: (r.advance 1).contents := by
  have hpos : 1 ≤ r.count := Nat.one_le_iff_ne_zero.mpr fun h0 => hne ((count_eq_zero_iff h).mp h0)
  rw [contents_eq_peek_append h hpos]
  simp [peek, Nat.mod_eq_of_lt h.head_lt]

end

end GapRing
