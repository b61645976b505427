import Mathlib.Logic.Relation
import Mathlib.Logic.Function.Basic

/-! Trees given by the parent of each node: every node with a parent is below the root. -/
namespace ParentTree
open Function Relation

variable {ν : Type*}

def Child (up : ν → Option ν) (d v : ν) : Prop := up v = some d

/-- The node `v` is `a` or below it. -/
def Below (up : ν → Option ν) : ν → ν → Prop := Relation.ReflTransGen (Child up)

/-- The root has no parent, and every node that has one is below the root. -/
structure Rooted (up : ν → Option ν) (root : ν) : Prop where
  root_up : up root = none
  below : ∀ v d, up v = some d → Below up root v

variable {up : ν → Option ν} {root v d : ν}

theorem Rooted.ne_root (h : Rooted up root) (hv : up v = some d) : v ≠ root := by
  rintro rfl
  rw [h.root_up] at hv
  cases hv

theorem Rooted.acyclic (h : Rooted up root) (v : ν) : ¬Relation.TransGen (Child up) v v := by
  have hbelow (w : ν) (hw : Below up root w) : ¬TransGen (Child up) w w := by
    induction hw with
    | refl =>
      intro hc
      obtain ⟨d, -, hd⟩ := TransGen.tail'_iff.mp hc
      exact h.ne_root hd rfl
    | @tail d w _ hdw ih =>
      intro hc
      obtain ⟨d', hwd', hd'⟩ := TransGen.tail'_iff.mp hc
      -- the node above is the one parent, and the way from it to the node closes the cycle
      have hd : d' = d := Option.some.inj (hd'.symm.trans hdw)
      rw [hd] at hwd'
      exact ih (TransGen.head' hdw hwd')
  intro hc
  obtain ⟨d, -, hd⟩ := TransGen.tail'_iff.mp hc
  exact hbelow v (h.below v d hd) hc

theorem Below.imp {up' : ν → Option ν} {a b : ν} (h : Below up a b)
    (hsub : ∀ d w, Child up d w → Child up' d w) : Below up' a b := by
  induction h with
  | refl => exact ReflTransGen.refl
  | tail _ hdw ih => exact ih.tail (hsub _ _ hdw)

variable [DecidableEq ν]

variable {w : ν}

theorem Below.attach {a : ν} (hw : Below up a w) (hv : up v = none) (d : ν) :
    Below (update up v (some d)) a w := by
  refine hw.imp fun c b hcb => ?_
  have hb : b ≠ v := by
    rintro rfl
    rw [Child, hv] at hcb
    cases hcb
  rwa [Child, update_of_ne hb]

theorem Rooted.attach (h : Rooted up root) (hv : up v = none) (hne : v ≠ root)
    (hd : Below up root d) : Rooted (update up v (some d)) root := by
  refine ⟨?_, fun w e hw => ?_⟩
  · rw [update_of_ne hne.symm, h.root_up]
  · by_cases hwv : w = v
    · subst hwv
      refine (hd.attach hv d).tail ?_
      rw [Child, update_self]
    · rw [update_of_ne hwv] at hw
      exact (h.below w e hw).attach hv d

theorem Below.of_detach {a : ν} (hw : Below (update up v none) a w) :
    Below up a w := by
  refine hw.imp fun c b hcb => ?_
  have hb : b ≠ v := by
    rintro rfl
    rw [Child, update_self] at hcb
    cases hcb
  rwa [Child, update_of_ne hb] at hcb

theorem Below.detach (hw : Below up root w) (hleaf : ∀ w, up w ≠ some v) (hne : w ≠ v) :
    Below (update up v none) root w := by
  induction hw with
  | refl => exact ReflTransGen.refl
  | @tail a b _ hab ih =>
    have ha : a ≠ v := by
      rintro rfl
      exact hleaf b hab
    refine (ih ha).tail ?_
    rwa [Child, update_of_ne hne]

theorem Rooted.detach (h : Rooted up root) (hleaf : ∀ w, up w ≠ some v) :
    Rooted (update up v none) root := by
  refine ⟨?_, fun w e hw => ?_⟩
  · by_cases hr : root = v
    · rw [hr, update_self]
    · rw [update_of_ne hr, h.root_up]
  · have hwv : w ≠ v := by
      rintro rfl
      rw [update_self] at hw
      cases hw
    rw [update_of_ne hwv] at hw
    exact (h.below w e hw).detach hleaf hwv

theorem below_or_detached (hw : Below up root w) :
    Below up v w ∨ Below (update up v none) root w := by
  induction hw with
  | refl => exact .inr ReflTransGen.refl
  | @tail a b _ hab ih =>
    by_cases hb : b = v
    · exact .inl (hb ▸ ReflTransGen.refl)
    · rcases ih with ha | ha
      · exact .inl (ha.tail hab)
      · refine .inr (ha.tail ?_)
        rwa [Child, update_of_ne hb]

theorem Below.move (hw : Below up root w) (hd : Below up root d) (hnot : ¬Below up v d) :
    Below (update up v (some d)) root w := by
  have hkeep {a b : ν} (hab : Child up a b) (hb : b ≠ v) :
      Child (update up v (some d)) a b := by
    rwa [Child, update_of_ne hb]
  have hd' : Below (update up v (some d)) root d := by
    rcases below_or_detached hd with hvd | hcut
    · exact absurd hvd hnot
    · refine hcut.imp fun a b hab => ?_
      have hb : b ≠ v := by
        rintro rfl
        rw [Child, update_self] at hab
        cases hab
      rw [Child, update_of_ne hb] at hab
      exact hkeep hab hb
  have hv : Below (update up v (some d)) root v := by
    refine hd'.tail ?_
    rw [Child, update_self]
  induction hw with
  | refl => exact ReflTransGen.refl
  | @tail a b _ hab ih =>
    by_cases hb : b = v
    · rw [hb]
      exact hv
    · exact ih.tail (hkeep hab hb)

theorem Rooted.move (h : Rooted up root) (hne : v ≠ root) (hd : Below up root d)
    (hnot : ¬Below up v d) : Rooted (update up v (some d)) root := by
  refine ⟨?_, fun w e hw => ?_⟩
  · rw [update_of_ne hne.symm, h.root_up]
  · by_cases hwv : w = v
    · rw [hwv]
      refine (hd.move hd hnot).tail ?_
      rw [Child, update_self]
    · rw [update_of_ne hwv] at hw
      exact (h.below w e hw).move hd hnot

end ParentTree
