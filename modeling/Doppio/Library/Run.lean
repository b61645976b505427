import Mathlib.Logic.Relation
import Mathlib.Tactic.SplitIfs

/-! Runs of a system that takes one step after another, with a condition on every step. -/
namespace Run
open Relation

variable {σ ε : Type*} {step : σ → ε → σ → Prop} {ok : σ → ε → Prop}

/-- The states reached from a state by steps that all meet the condition `ok`. -/
def Reaches (step : σ → ε → σ → Prop) (ok : σ → ε → Prop) : σ → σ → Prop :=
  Relation.ReflTransGen fun s s' => ∃ e, ok s e ∧ step s e s'

theorem Reaches.invariant {I : σ → Prop} {s s' : σ} (h : Reaches step ok s s')
    (hstep : ∀ s e s', I s → ok s e → step s e s' → I s') (hs : I s) : I s' := by
  induction h with
  | refl => exact hs
  | tail _ h ih =>
    obtain ⟨e, hok, he⟩ := h
    exact hstep _ e _ ih hok he

theorem Reaches.refl (s : σ) : Reaches step ok s s := ReflTransGen.refl

theorem Reaches.trans {s s' s'' : σ} (h : Reaches step ok s s') (h' : Reaches step ok s' s'') :
    Reaches step ok s s'' := ReflTransGen.trans h h'

theorem Reaches.single {s s' : σ} (e : ε) (hok : ok s e) (h : step s e s') :
    Reaches step ok s s' := ReflTransGen.single ⟨e, hok, h⟩

theorem Reaches.mono {ok' : σ → ε → Prop} {s s' : σ} (h : Reaches step ok s s')
    (hok : ∀ s e, ok s e → ok' s e) : Reaches step ok' s s' := by
  induction h with
  | refl => exact Reaches.refl s
  | tail _ h ih =>
    obtain ⟨e, he, hstep⟩ := h
    exact ReflTransGen.tail ih ⟨e, hok _ e he, hstep⟩

variable {f : σ → ε → Option σ}

theorem reaches_of_guarded [∀ s e, Decidable (ok s e)] {es : List ε}
    {s s' : σ} (h : es.foldlM (fun s e => if ok s e then f s e else none) s = some s') :
    Reaches (fun s e s' => f s e = some s') ok s s' := by
  induction es generalizing s with
  | nil =>
    cases h
    exact Reaches.refl _
  | cons e es ih =>
    rw [List.foldlM_cons, Option.bind_eq_bind, Option.bind_eq_some_iff] at h
    obtain ⟨t, he, ht⟩ := h
    split_ifs at he with hok
    exact (Reaches.single e hok he).trans (ih ht)

theorem reaches_of_foldlM {es : List ε} {s s' : σ} (h : es.foldlM f s = some s') :
    Reaches (fun s e s' => f s e = some s') (fun _ _ => True) s s' :=
  reaches_of_guarded (by simpa using h)

end Run
