import Doppio.Vfs.NameCalls

/-! The tree of directories over whole runs of the calls on names. -/
namespace Doppio.Vfs
open ParentTree Option

namespace State

variable {s s' : State} {v d : VPtr} {up : VPtr → Option VPtr} {base extra : VPtr → ℕ}

def Names (s : State) (d : VPtr) (i : ℕ) (v : VPtr) : Prop :=
  ((s.vnode d).entries[i]?).map RamfsEntry.vn = some v

/-- A tree below the root: a vnode in use and not removed is the root or the target of exactly one
entry, and is reached from the root; none is below itself. -/
structure IsTree (s : State) : Prop where
  entry : ∀ v, s.Live v → (s.vnode v).unlinked = false → v ≠ s.root →
    ∃! p : VPtr × ℕ, s.Names p.1 p.2 v
  reached : ∀ v, s.Live v → (s.vnode v).unlinked = false → s.Descends s.root v
  acyclic : ∀ v, ¬Relation.TransGen (fun a b => ∃ e ∈ (s.vnode a).entries, e.vn = b) v v

def RamfsTree (s : State) : Prop :=
  ∃ up base, Wf s up base s.fdRefs ∧ Rooted up s.root

theorem Names.mem {i : ℕ} (h : s.Names d i v) : ∃ e ∈ (s.vnode d).entries, e.vn = v := by
  obtain ⟨e, he, hv⟩ := map_eq_some_iff.mp h
  exact ⟨e, List.mem_of_getElem? he, hv⟩

theorem Wf.existsUnique_names (h : Wf s up base extra) (hv : up v = some d) :
    ∃! p : VPtr × ℕ, s.Names p.1 p.2 v := by
  obtain ⟨e, he, hev⟩ := h.entry v d hv
  obtain ⟨i, hi⟩ := List.getElem?_of_mem he
  refine ⟨(d, i), map_eq_some_iff.mpr ⟨e, hi, hev⟩, ?_⟩
  rintro ⟨c, j⟩ hj
  have hc : c = d := by
    have hup := h.child_iff.mp (Names.mem hj)
    rw [Child, hv] at hup
    exact (some.inj hup).symm
  obtain ⟨x, hx, hxv⟩ := map_eq_some_iff.mp hj
  rw [hc] at hx
  -- the entries of one directory are for different vnodes
  have hij : ((s.vnode d).entries.map RamfsEntry.vn)[j]? =
      ((s.vnode d).entries.map RamfsEntry.vn)[i]? := by
    rw [List.getElem?_map, List.getElem?_map, hx, hi, map_some, map_some, hxv, hev]
  have hlt : j < ((s.vnode d).entries.map RamfsEntry.vn).length := by
    rw [List.length_map]
    exact (List.getElem?_eq_some_iff.mp hx).1
  rw [hc, (List.getElem?_inj hlt (h.nodup d)).mp hij]

theorem RamfsTree.isTree (h : RamfsTree s) : IsTree s := by
  obtain ⟨up, base, hwf, hroot⟩ := h
  refine ⟨fun v hv hl hne => ?_, fun v hv hl => ?_, fun v hv => ?_⟩
  · cases hup : up v with
    | some d => exact hwf.existsUnique_names hup
    | none =>
      rw [hwf.removed v hv hup hne] at hl
      cases hl
  · exact hwf.descends_iff.mpr (hwf.below_of_linked hroot hv hl)
  · rw [hwf.child_eq] at hv
    exact hroot.acyclic v hv

theorem RamfsTree.step {op : Op} (h : RamfsTree s) (hok : Admissible True False s op)
    (hs : step s op = some s') :
    RamfsTree s' ∧ ∀ d, s.Descends s.root d → ¬s'.Descends s'.root d →
      (s.vnode d).entries = [] := by
  obtain ⟨up, base, hwf, hroot⟩ := h
  obtain ⟨up', hwf', hr, htree, -⟩ := hwf.step False.elim (.inl trivial) hok hs
  obtain ⟨hroot', hbelow⟩ := htree trivial hroot
  refine ⟨⟨up', base, hwf', hr ▸ hroot'⟩, fun d hd hnot => ?_⟩
  rw [hwf.descends_iff] at hd
  rw [hwf'.descends_iff, hr] at hnot
  exact (hbelow d hd).resolve_left hnot

end State

/-- From a tree of directories, while all calls are admissible, every state has a tree of
directories, and a directory taken out of it was empty. -/
theorem runs_isTree {s₀ s : State} (h₀ : s₀.RamfsTree) (hrun : Runs True False s₀ s) :
    s.IsTree ∧ ∀ op s', Admissible True False s op → step s op = some s' →
      ∀ d, s.Descends s.root d → ¬s'.Descends s'.root d → (s.vnode d).entries = [] := by
  have htree : s.RamfsTree :=
    hrun.invariant (fun _ _ _ h hok hs => (h.step hok hs).1) h₀
  exact ⟨htree.isTree, fun op s' hok hs => (htree.step hok hs).2⟩

namespace State

theorem init_ramfsTree (addr : VPtr → ℕ) : (init addr).RamfsTree :=
  ⟨_, _, init_wf addr, rfl, fun _ _ hv => absurd hv.symm (some_ne_none _)⟩

theorem Descends.of_entries {s : State} {a b : VPtr} (h : s.Descends a b)
    (ha : (s.vnode a).entries = []) : b = a := by
  rcases Relation.ReflTransGen.cases_head h with rfl | ⟨c, ⟨e, he, -⟩, -⟩
  · rfl
  · rw [ha] at he
    cases he

end State

theorem runs_isTree_rmdir :
    ∃ s, [Op.mkdir [0x2f, 0x61], .rmdir [0x2f, 0x61]].foldlM step (init id) = some s ∧
      s.IsTree := by
  have hmk : Admissible True False (init id) (.mkdir [0x2f, 0x61]) := by
    intro d t hd
    have hroot : ((init id).lookupParent [0x2f, 0x61]).map
        (fun p => p.1.toOption.map fun d => (p.2.vnode d).unlinked) = some (some false) := by
      decide +kernel
    rw [hd] at hroot
    exact ⟨fun _ => some.inj (some.inj hroot), False.elim⟩
  obtain ⟨s1, h1⟩ := isSome_iff_exists.mp
    (show (step (init id) (.mkdir [0x2f, 0x61])).isSome by decide +kernel)
  have hrm : Admissible True False s1 (.rmdir [0x2f, 0x61]) :=
    fun _ _ _ _ _ hempty => ⟨hempty, False.elim⟩
  obtain ⟨s2, h2⟩ := isSome_iff_exists.mp
    (show ([Op.mkdir [0x2f, 0x61], .rmdir [0x2f, 0x61]].foldlM step (init id)).isSome by
      decide +kernel)
  refine ⟨s2, h2, ?_⟩
  simp only [List.foldlM_cons, List.foldlM_nil, h1, bind_eq_bind, bind_some,
    bind_eq_some_iff, pure_def, some.injEq, exists_eq_right] at h2
  have hrun : Runs True False (init id) s2 :=
    (Run.Reaches.single _ hmk h1).trans (Run.Reaches.single _ hrm h2)
  exact (runs_isTree (State.init_ramfsTree id) hrun).1

/-- `unlink` takes a directory that is not empty: nothing leads to the directory in it. -/
theorem unlink_detaches :
    ∃ s, [Op.mkdir [0x2f, 0x61], .mkdir [0x2f, 0x61, 0x2f, 0x62], .unlink [0x2f, 0x61]].foldlM step
      (init id) = some s ∧ ¬s.IsTree := by
  obtain ⟨s, hs, hroot, hentries, hcount, hlinked⟩ : ∃ s ∈ [Op.mkdir [0x2f, 0x61],
      .mkdir [0x2f, 0x61, 0x2f, 0x62], .unlink [0x2f, 0x61]].foldlM step (init id), s.root = 0 ∧
      (s.vnode 0).entries = [] ∧ (s.vnode 2).refCount = 1 ∧ (s.vnode 2).unlinked = false := by
    decide +kernel
  refine ⟨s, hs, fun htree => ?_⟩
  have hlive : s.Live 2 := by
    rw [State.Live, hcount]
    decide
  have hreached := htree.reached 2 hlive hlinked
  rw [hroot] at hreached
  exact absurd (hreached.of_entries hentries) (by decide)

end Doppio.Vfs
