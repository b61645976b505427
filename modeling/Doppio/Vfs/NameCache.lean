import Doppio.Vfs.NameCalls

/-! The name cache over runs of the calls on names: a lookup finds what it would find without it. -/
namespace Doppio.Vfs

namespace State

variable {s s' : State}

def CacheSound (s : State) : Prop := (∃ up base, Wf s up base s.fdRefs) ∧ Coherent s

theorem CacheSound.step {op : Op} (h : CacheSound s) (hok : Admissible False True s op)
    (hs : step s op = some s') : CacheSound s' := by
  obtain ⟨⟨up, base, hwf⟩, hc⟩ := h
  obtain ⟨up', hwf', -, -, hcache⟩ := hwf.step (fun _ => hc) (.inr trivial) hok hs
  exact ⟨⟨up', base, hwf'⟩, hcache trivial hc⟩

theorem CacheSound.vfsLookup (h : CacheSound s) (cached : Bool) (path : Name) (start : Option VPtr)
    (hstart : ∀ b, start = some b → s.Live b ∧ (s.vnode b).vtype ≠ .lnk) :
    (s.vfsLookup cached path start).map Prod.fst = some (s.view.namei 9 true path start) := by
  obtain ⟨⟨up, base, hwf⟩, hc⟩ := h
  obtain ⟨r, t, hr, -, hcoh, -⟩ := hwf.vfsLookupImpl cached 9 true path start
    fun b hb => ⟨hwf.held (hstart b hb).1, (hstart b hb).2⟩
  rw [State.vfsLookup, hr, Option.map_some, (hcoh hc).1]

end State

/-- While all calls are admissible, the lookup of every path from every directory in use gives the
same vnode or error as the lookup that always misses the cache. -/
theorem runs_lookup_eq {s₀ s : State} (h₀ : s₀.CacheSound) (hrun : Runs False True s₀ s)
    (path : Name) (start : Option VPtr)
    (hstart : ∀ b, start = some b → s.Live b ∧ (s.vnode b).vtype ≠ .lnk) :
    ∃ r, (s.vfsLookup true path start).map Prod.fst = some r ∧
      (s.vfsLookup false path start).map Prod.fst = some r := by
  have hsound : s.CacheSound := hrun.invariant (fun _ _ _ h hok hs => h.step hok hs) h₀
  exact ⟨_, hsound.vfsLookup true path start hstart, hsound.vfsLookup false path start hstart⟩

theorem State.init_cacheSound (addr : VPtr → ℕ) : (init addr).CacheSound := by
  refine ⟨⟨_, _, init_wf addr⟩, fun d e he => ?_, fun k v hv => ?_⟩
  · rw [entries_init] at he
    cases he
  · cases hv

/-- `open(path, O_CREAT)` for a regular file. -/
def creatArgs : State.OpenArgs := ⟨true, false, .reg, true, true, false, true⟩

theorem runs_lookup_eq_creat :
    ∃ s, step (init id) (.open [0x2f, 0x61] creatArgs) = some s ∧
      ∃ r, (s.vfsLookup true [0x2f, 0x61] (some 0)).map Prod.fst = some r ∧
        (s.vfsLookup false [0x2f, 0x61] (some 0)).map Prod.fst = some r := by
  have hok : Admissible False True (init id) (.open [0x2f, 0x61] creatArgs) :=
    fun _ _ _ _ _ _ => ⟨False.elim, fun _ => by decide⟩
  obtain ⟨s, hs, hval⟩ : ∃ s ∈ step (init id) (.open [0x2f, 0x61] creatArgs),
      (s.vnode 0).refCount = 2 ∧ (s.vnode 0).vtype = .dir := by
    decide +kernel
  refine ⟨s, hs, ?_⟩
  refine runs_lookup_eq (State.init_cacheSound id) (Run.Reaches.single _ hok hs) _ _ ?_
  intro b hb
  rw [← Option.some.inj hb, State.Live, hval.1, hval.2]
  decide

/-- A renamed file is still found under its old name. -/
theorem rename_stale :
    ∃ s, [Op.open [0x2f, 0x61] creatArgs, .rename [0x2f, 0x61] [0x2f, 0x62]].foldlM step
      (init id) = some s ∧ (s.vfsLookup true [0x2f, 0x61] (some 0)).map Prod.fst = some (.ok 1) ∧
        (s.vfsLookup false [0x2f, 0x61] (some 0)).map Prod.fst = some (.error .ENOENT) := by
  obtain ⟨s, hs, hval⟩ : ∃ s ∈ [Op.open [0x2f, 0x61] creatArgs,
      .rename [0x2f, 0x61] [0x2f, 0x62]].foldlM step (init id),
      (s.vfsLookup true [0x2f, 0x61] (some 0)).map Prod.fst = some (.ok 1) ∧
      (s.vfsLookup false [0x2f, 0x61] (some 0)).map Prod.fst = some (.error .ENOENT) := by
    decide +kernel
  exact ⟨s, hs, hval⟩

end Doppio.Vfs
