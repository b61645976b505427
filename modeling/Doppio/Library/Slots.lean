import Mathlib.Data.List.Perm.Basic
import Mathlib.Data.List.ReduceOption

/-! Slots searched from the front: entries are found, cleared, put into the first empty slot, and
swept away. The slots after the list are empty. -/
namespace Slots
open List

variable {α : Type*}

abbrev entries (slots : List (Option α)) : List α := slots.reduceOption

def find (p : α → Bool) (slots : List (Option α)) : Option α := (entries slots).find? p

def clear (p : α → Bool) : List (Option α) → List (Option α)
  | [] => []
  | none :: rest => none :: clear p rest
  | some a :: rest => if p a then none :: rest else some a :: clear p rest

/-- The first empty of `size` slots is filled; `none` if there is none. -/
def insert (a : α) : ℕ → List (Option α) → Option (List (Option α))
  | size, [] => if size = 0 then none else some [some a]
  | _, none :: rest => some (some a :: rest)
  | size, some b :: rest => (insert a (size - 1) rest).map (some b :: ·)

/-- At most `n` entries with a property are swept away; the second part. -/
def sweep (p : α → Bool) : ℕ → List (Option α) → List (Option α) × List α
  | 0, slots => (slots, [])
  | _ + 1, [] => ([], [])
  | n + 1, none :: rest =>
    let r := sweep p (n + 1) rest
    (none :: r.1, r.2)
  | n + 1, some a :: rest =>
    if p a then
      let r := sweep p n rest
      (none :: r.1, a :: r.2)
    else
      let r := sweep p (n + 1) rest
      (some a :: r.1, r.2)

/-- The first entry with a property that is not stale; stale ones before it are cleared. -/
def scan (p stale : α → Bool) : List (Option α) → Option α × List (Option α)
  | [] => (none, [])
  | none :: rest =>
    let r := scan p stale rest
    (r.1, none :: r.2)
  | some a :: rest =>
    if p a && !stale a then (some a, some a :: rest)
    else
      let r := scan p stale rest
      (r.1, (if p a then none else some a) :: r.2)

variable {slots slots' : List (Option α)} {p : α → Bool} {a : α}

theorem perm_cons_eraseP {l : List α} (h : l.find? p = some a) : l.Perm (a :: l.eraseP p) := by
  induction l with
  | nil => cases h
  | cons b rest ih =>
    by_cases hb : p b = true
    · rw [find?_cons_of_pos hb, Option.some.injEq] at h
      rw [eraseP_cons_of_pos hb, h]
    · rw [find?_cons_of_neg hb] at h
      rw [eraseP_cons_of_neg hb]
      exact ((ih h).cons b).trans (Perm.swap a b _)

theorem entries_insert {size : ℕ} (h : insert a size slots = some slots') :
    (entries slots').Perm (a :: entries slots) := by
  induction slots generalizing size slots' with
  | nil =>
    unfold insert at h
    split_ifs at h
    cases h
    rfl
  | cons o rest ih =>
    cases o with
    | none =>
      cases h
      simp
    | some b =>
      obtain ⟨rest', hrest, rfl⟩ := Option.map_eq_some_iff.mp h
      exact ((ih hrest).cons b).trans (Perm.swap a b _)

theorem insert_isSome {size : ℕ} (a : α) (h : (entries slots).length < size) :
    ∃ slots', insert a size slots = some slots' := by
  induction slots generalizing size with
  | nil => exact ⟨_, if_neg (Nat.ne_of_gt h)⟩
  | cons o rest ih =>
    cases o with
    | none => exact ⟨_, rfl⟩
    | some b =>
      obtain ⟨rest', hrest⟩ := ih (Nat.lt_sub_of_add_lt h)
      exact ⟨some b :: rest', by rw [insert, hrest, Option.map_some]⟩

theorem sweep_of_forall_not (h : ∀ a ∈ entries slots, p a = false) (n : ℕ) :
    sweep p n slots = (slots, []) := by
  induction slots with
  | nil => cases n <;> rfl
  | cons o rest ih =>
    cases n with
    | zero => rfl
    | succ n =>
      cases o with
      | none =>
        have hrest := ih (by simpa using h)
        simp [sweep, hrest]
      | some a =>
        rw [entries, reduceOption_cons_of_some, forall_mem_cons] at h
        simp [sweep, h.1, ih h.2]

theorem scan_of_forall_not {stale : α → Bool} (h : ∀ a ∈ entries slots, stale a = false)
    (p : α → Bool) : scan p stale slots = (find p slots, slots) := by
  induction slots with
  | nil => rfl
  | cons o rest ih =>
    cases o with
    | none =>
      have hrest := ih (by simpa using h)
      simp [scan, find, hrest]
    | some a =>
      rw [entries, reduceOption_cons_of_some, forall_mem_cons] at h
      by_cases ha : p a = true
      · simp [scan, find, ha, h.1]
      · simp [scan, find, ha, ih h.2]

theorem find_eq_none : find p slots = none ↔ ∀ a ∈ entries slots, p a = false := by
  simp [find]

theorem find_eq_some (h : find p slots = some a) : a ∈ entries slots ∧ p a = true :=
  ⟨mem_of_find?_eq_some h, find?_some h⟩

end Slots
