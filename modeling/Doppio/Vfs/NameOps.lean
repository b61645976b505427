import Doppio.Library.ParentTree
import Doppio.Vfs.DirRefs

/-! What a call does to the tree of directories and the name cache; `tree` and `cache` say which of
them a result is about. -/
namespace Doppio.Vfs
open Function List Option Except
open ParentTree

theorem View.walk_mem {t : View} {resolve : Name → Option VPtr → Except Errno VPtr}
    {P : VPtr → Prop} (hentries : ∀ d, ∀ e ∈ t.entries d, P e.vn)
    (hresolve : ∀ path base v, (∀ b, base = some b → P b) → resolve path base = .ok v → P v)
    (hroot : P t.root) (followLast : Bool) (comps : List Name) {curr v : VPtr}
    {parent : Option VPtr} (hcurr : P curr) (hparent : ∀ b, parent = some b → P b)
    (hv : t.walk resolve followLast comps curr parent = .ok v) : P v := by
  have hfollow {c u : VPtr} {parent : Option VPtr} (hc : P c)
      (hparent : ∀ b, parent = some b → P b) (hu : t.follow resolve c parent = .ok u) : P u := by
    unfold View.follow at hu
    split_ifs at hu with hl
    · refine hresolve _ _ u (fun b hb => ?_) hu
      split_ifs at hb with hs
      · cases hb
        exact hroot
      · exact hparent b hb
    · rw [← ok.inj hu]
      exact hc
  induction comps generalizing curr parent with
  | nil =>
    unfold View.walk at hv
    split_ifs at hv
    · exact hfollow hcurr hparent hv
    · rw [← ok.inj hv]
      exact hcurr
  | cons name rest ih =>
    unfold View.walk at hv
    split at hv
    · cases hv
    · next c hc =>
      have hPc := hfollow hcurr hparent hc
      split_ifs at hv with hdir
      split at hv
      · cases hv
      · next found hfound =>
        refine ih ?_ (fun b hb => some.inj hb ▸ hPc) hv
        unfold View.lookup at hfound
        split_ifs at hfound with hdot
        · rw [← ok.inj hfound]
          exact hPc
        · split at hfound
          · next e he =>
            rw [← ok.inj hfound]
            exact hentries c e (mem_of_find?_eq_some he)
          · cases hfound

theorem View.namei_mem {t : View} {P : VPtr → Prop} (hentries : ∀ d, ∀ e ∈ t.entries d, P e.vn)
    (hroot : P t.root) (levels : ℕ) {followLast : Bool} {path : Name} {start : Option VPtr}
    {v : VPtr} (hstart : ∀ b, start = some b → P b)
    (hv : t.namei levels followLast path start = .ok v) : P v := by
  induction levels generalizing followLast path start v with
  | zero => cases hv
  | succ levels ih =>
    have hfrom (c : VPtr) (hc : (if path.head? = some slash then some t.root else start) = some c) :
        P c := by
      split_ifs at hc with hs
      · cases hc
        exact hroot
      · exact hstart c hc
    unfold View.namei at hv
    by_cases hpath : path = []
    · rw [if_pos hpath] at hv
      cases hv
    · rw [if_neg hpath] at hv
      cases hc : if path.head? = some slash then some t.root else start with
      | none =>
        rw [hc] at hv
        cases hv
      | some c =>
        rw [hc] at hv
        refine View.walk_mem hentries (fun _ _ _ hb hv => ih hb hv) hroot followLast _
          (hfrom c hc) (fun b hb => ?_) hv
        cases hb

namespace State

variable {s s' t : State} {v w d : VPtr} {name path : Name} {type : VType} {e found : RamfsEntry}
  {up : VPtr → Option VPtr} {base extra : VPtr → ℕ} {tree cache : Prop}

/-- The vnode has an entry, or is held for good. -/
def Anchored (up : VPtr → Option VPtr) (base : VPtr → ℕ) (v : VPtr) : Prop :=
  up v ≠ none ∨ base v ≠ 0

theorem Anchored.held (h : Anchored up base v) (extra : VPtr → ℕ) : Held up base extra v :=
  h.imp_right Or.inl

theorem Wf.below_of_linked (h : Wf s up base extra) (hr : Rooted up s.root) (hd : s.Live d)
    (hl : (s.vnode d).unlinked = false) : Below up s.root d := by
  cases hup : up d with
  | some p => exact hr.below d p hup
  | none =>
    have hroot : d = s.root := by
      by_contra hne
      rw [h.removed d hd hup hne] at hl
      cases hl
    rw [hroot]
    exact Relation.ReflTransGen.refl

theorem Wf.anchored_of_linked (h : Wf s up base extra) (hd : s.Live d)
    (hl : (s.vnode d).unlinked = false) : Anchored up base d := by
  by_cases hup : up d = none
  · have hroot : d = s.root := by
      by_contra hne
      rw [h.removed d hd hup hne] at hl
      cases hl
    rw [hroot]
    exact .inr h.root_base
  · exact .inl hup

/-- The tree and the cache after a call that leaves the outer references `extra`: a vnode that
leaves the tree had no entries. -/
def Outcome (tree cache : Prop) (up : VPtr → Option VPtr) (base extra : VPtr → ℕ) (s s' : State) :
    Prop :=
  ∃ up', Wf s' up' base extra ∧ s'.root = s.root ∧ s'.cwd = s.cwd ∧ s'.fds = s.fds ∧
    (tree → Rooted up s.root → Rooted up' s.root ∧
      ∀ w, Below up s.root w → Below up' s.root w ∨ (s.vnode w).entries = []) ∧
    (cache → Coherent s → Coherent s')

theorem Wf.outcome_agrees (h : Wf s' up base extra) (ha : Agrees s s')
    (hc : cache → Coherent s → Coherent s') : Outcome tree cache up base extra s s' :=
  ⟨up, h, ha.root, ha.cwd, ha.fds, fun _ hr => ⟨hr, fun _ hw => .inl hw⟩, hc⟩

theorem Wf.outcome (h : Wf s up base extra) : Outcome tree cache up base extra s s :=
  h.outcome_agrees (Agrees.refl s) fun _ hc => hc

theorem Outcome.vput (h : Outcome tree cache up base (addRef extra v) s s') :
    Outcome tree cache up base extra s (s'.vput v) := by
  obtain ⟨up', hwf, hroot, hcwd, hfds, htree, hcache⟩ := h
  exact ⟨up', hwf.vput, (root_vput s' v).trans hroot, (cwd_vput s' v).trans hcwd,
    (fds_vput s' v).trans hfds, htree, fun hc hs => (hcache hc hs).vput hwf⟩

theorem Outcome.of_agrees (h : Outcome tree cache up base extra t s') (ha : Agrees s t)
    (hc : cache → Coherent s → Coherent t) : Outcome tree cache up base extra s s' := by
  obtain ⟨up', hwf, hroot, hcwd, hfds, htree, hcache⟩ := h
  refine ⟨up', hwf, hroot.trans ha.root, hcwd.trans ha.cwd, hfds.trans ha.fds, fun ht hr => ?_,
    fun h hs => hcache h (hc h hs)⟩
  rw [ha.root] at htree
  refine (htree ht hr).imp_right fun hw w hb => ?_
  rw [← ha.entries w]
  exact hw w hb

theorem Outcome.agrees (h : Outcome tree cache up base extra s t) {extra' : VPtr → ℕ}
    (hwf : ∀ up', Wf t up' base extra → Wf s' up' base extra') (ha : Agrees t s')
    (hc : cache → Coherent t → Coherent s') : Outcome tree cache up base extra' s s' := by
  obtain ⟨up', h, hroot, hcwd, hfds, htree, hcache⟩ := h
  exact ⟨up', hwf up' h, ha.root.trans hroot, ha.cwd.trans hcwd, ha.fds.trans hfds, htree,
    fun h hs => hc h (hcache h hs)⟩

/-- The vnode is cached under its name in `d`. -/
def CachedAs (s : State) (v d : VPtr) (name : Name) : Prop :=
  v ∈ s.vnodeHash (s.vnodeHashFunc d name) ∧ (s.vnode v).vParent = some d ∧ (s.vnode v).vName = name

/-- A new name in `d`: the directory is not removed, and the cache can hold the name. -/
def NewOk (tree cache : Prop) (s : State) (d : VPtr) (name : Name) : Prop :=
  (tree → (s.vnode d).unlinked = false) ∧ (cache → name.length ≤ 31)

/-- The removed vnode has no entries, and the cache does not keep it. -/
def CutOk (cache : Prop) (s : State) (d : VPtr) (e : RamfsEntry) : Prop :=
  (s.vnode e.vn).entries = [] ∧ (cache → s.CachedAs e.vn d e.name → (s.vnode e.vn).refCount = 1)

theorem view_lookup_congr_at (h : (s'.vnode d).entries = (s.vnode d).entries) (name : Name) :
    s'.view.lookup d name = s.view.lookup d name := by
  simp only [View.lookup, view, h]

theorem view_lookup_ok (hdot : name ≠ dot) :
    s.view.lookup d name = .ok v ↔ ∃ e, s.entryNamed d name = some e ∧ e.vn = v := by
  have hfind : (s.view.entries d).find? (fun e => e.name = name) = s.entryNamed d name := rfl
  unfold View.lookup
  rw [if_neg hdot, hfind]
  cases s.entryNamed d name with
  | none => simp
  | some e => simp

theorem Coherent.newEntry {s1 : State} (hc : Coherent s) (h : Wf s up base extra)
    (ha : Allocates s type v s1) (hdv : d ≠ v) {err : Errno}
    (hnone : s.view.lookup d name = .error err) (hlen : name.length ≤ 31) :
    Coherent (s1.setEntries d (⟨name.take 255, v⟩ :: ·)) ∧
      (s1.setEntries d (⟨name.take 255, v⟩ :: ·)).view.lookup d name = .ok v := by
  have htake : name.take 255 = name := take_of_length_le (by omega)
  have hdot : name ≠ dot := by
    rintro rfl
    cases hnone
  have hs := sameRefs_setEntries s1 d (⟨name.take 255, v⟩ :: ·)
  have hold {w : VPtr} (hw : w ≠ v) : s1.vnode w = s.vnode w := by
    rw [ha.vnode, update_of_ne hw]
  have hentries (c : VPtr) (hc : c ≠ v) :
      ((s1.setEntries d (⟨name.take 255, v⟩ :: ·)).vnode c).entries =
        if c = d then ⟨name, v⟩ :: (s.vnode d).entries else (s.vnode c).entries := by
    rw [entries_setEntries, hold hdv, hold hc, htake]
  have hentries_v : ((s1.setEntries d (⟨name.take 255, v⟩ :: ·)).vnode v).entries = [] := by
    rw [entries_setEntries, if_neg hdv.symm, ha.vnode, update_self]
    rfl
  refine ⟨⟨fun c x hx => ?_, fun k w hw => ?_⟩, ?_⟩
  · by_cases hcv : c = v
    · rw [hcv, hentries_v] at hx
      cases hx
    · rw [hentries c hcv] at hx
      split_ifs at hx with hcd
      · rcases mem_cons.mp hx with rfl | hx
        · exact hlen
        · exact hc.short d x hx
      · exact hc.short c x hx
  · have hmem := ha.hash k w hw
    have hwv : w ≠ v := by
      rintro rfl
      exact ha.dead (h.hashed k w hmem)
    obtain ⟨p, hp, hk, hl⟩ := hc.hashed k w hmem
    rw [hs.vParent, hs.vName, hold hwv]
    refine ⟨p, hp, ?_, ?_⟩
    · rw [hk, vnodeHashFunc, vnodeHashFunc, hs.addr, ha.addr]
    · by_cases hn : (s.vnode w).vName = dot
      · rw [hn] at hl ⊢
        exact hl
      · obtain ⟨x, hx, rfl⟩ := (view_lookup_ok hn).mp hl
        have hpv : p ≠ v := by
          rintro rfl
          have hmem := mem_of_find?_eq_some hx
          rw [h.entries_of_dead ha.dead] at hmem
          cases hmem
        refine (view_lookup_ok hn).mpr ⟨x, ?_, rfl⟩
        rw [entryNamed, hentries p hpv]
        split_ifs with hpd
        · -- the name looked up is not the new one, which the directory did not have
          rw [find?_cons_of_neg]
          · rw [← hpd]
            exact hx
          · rw [decide_eq_true_eq]
            intro hname
            rw [← hname, hpd, hnone] at hl
            cases hl
        · exact hx
  · refine (view_lookup_ok hdot).mpr ⟨⟨name, v⟩, ?_, rfl⟩
    rw [entryNamed, hentries d hdv, if_pos rfl, find?_cons_of_pos (by simp)]

theorem Wf.ramfsNew (h : Wf s up base extra) (hd : Anchored up base d)
    (hok : NewOk tree cache s d name) (type : VType) :
    ∃ r s', s.ramfsNew d name type = some (r, s') ∧ Outcome tree cache up base extra s s' ∧
      ∀ v, r = .ok v → s'.Live v ∧ (cache → Coherent s → s'.view.lookup d name = .ok v) := by
  unfold State.ramfsNew
  split_ifs with hlen
  · exact ⟨_, _, rfl, h.outcome, fun v hv => by cases hv⟩
  · obtain ⟨r, t, hr, ha, hc, hafter⟩ := h.ramfsLookup (hd.held extra) name
    rw [hr]
    cases r with
    | ok v =>
      refine ⟨_, _, rfl, ?_, fun v hv => by cases hv⟩
      exact (hafter.2.outcome_agrees ha fun _ hs => (hc hs).2).vput
    | error err =>
      have hal := hafter.ramfsCreateVnode type
      have hwf := hafter.newEntry hal hd (name.take 255)
      obtain ⟨hup, hbase, -⟩ := hafter.up_of_dead hal.dead
      have hdv : d ≠ (t.ramfsCreateVnode type).1 := by
        intro hdv
        rw [← hdv] at hup hbase
        rcases hd with hd | hd
        · exact hd hup
        · exact hd hbase
      have hcoh (hs : Coherent s) (hcache : cache) := (hc hs).2.newEntry hafter hal hdv
        (show t.view.lookup d name = .error err by rw [ha.view]; exact (hc hs).1.symm) (hok.2 hcache)
      refine ⟨_, _, rfl, ⟨_, hwf, hal.root.trans ha.root, hal.cwd.trans ha.cwd,
        hal.fds.trans ha.fds, fun htree hroot => ⟨?_, fun w hw => .inl (hw.attach hup d)⟩,
        fun hcache hs => (hcoh hs hcache).1⟩, fun v hv => ?_⟩
      · have hne : (t.ramfsCreateVnode type).1 ≠ s.root := by
          intro hne
          rw [hne] at hbase
          exact h.root_base hbase
        exact hroot.attach hup hne
          (h.below_of_linked hroot (h.live_of_held (hd.held extra)) (hok.1 htree))
      · rw [← ok.inj hv]
        refine ⟨hwf.live_of_up ?_, fun hcache hs => (hcoh hs hcache).2⟩
        rw [update_self]
        exact some_ne_none d

theorem Coherent.not_cached (hc : Coherent s) (he : s.entryNamed d name = some e)
    (hok : s.CachedAs e.vn d e.name → (s.vnode e.vn).refCount = 1) (hcut : Cuts s d e s')
    (hdot : e.name ≠ dot) {k : ℕ} (hw : w ∈ s'.vnodeHash k) (hp : (s'.vnode w).vParent = some d) :
    (s'.vnode w).vName ≠ e.name := by
  intro hn
  obtain ⟨hmem, hne⟩ := hcut.hash k w hw
  rw [hcut.vParent] at hp
  rw [hcut.vName] at hn
  obtain ⟨p, hp', hk, hl⟩ := hc.hashed k w hmem
  rw [hp, some.injEq] at hp'
  rw [hn, ← hp', entryNamed_name he] at hl
  obtain ⟨x, hx, hxw⟩ := (view_lookup_ok (entryNamed_name he ▸ hdot)).mp hl
  -- the vnode of the entry was in the cache under this name: its last reference is gone
  have hwe : w = e.vn := by
    rw [he, some.injEq] at hx
    rw [← hxw, hx]
  subst hwe
  refine hne (hok ⟨?_, hp, hn⟩) rfl
  rw [← hn, hp', ← hk]
  exact hmem

theorem Coherent.cut (hc : Coherent s) (he : s.entryNamed d name = some e)
    (hok : s.CachedAs e.vn d e.name → (s.vnode e.vn).refCount = 1) (hcut : Cuts s d e s') :
    Coherent s' := by
  refine ⟨fun c x hx => ?_, fun k w hw => ?_⟩
  · rw [hcut.entries c] at hx
    split_ifs at hx with hcd
    · exact hc.short d x ((dropName_sublist _ _).subset hx)
    · exact hc.short c x hx
  · obtain ⟨p, hp, hk, hl⟩ := hc.hashed k w (hcut.hash k w hw).1
    refine ⟨p, (hcut.vParent w).trans hp, ?_, ?_⟩
    · rw [hcut.vName, hk, vnodeHashFunc, vnodeHashFunc, hcut.addr]
    · by_cases hn : (s.vnode w).vName = dot
      · rw [hn] at hl
        rw [hcut.vName, hn]
        exact hl
      · by_cases hpd : p = d
        · have hne : (s.vnode w).vName ≠ e.name := by
            intro hname
            refine hc.not_cached he hok hcut (hname ▸ hn) hw ?_ ?_
            · rw [hcut.vParent, hp, hpd]
            · rw [hcut.vName, hname]
          rw [hcut.vName]
          obtain ⟨x, hx, hxw⟩ := (view_lookup_ok hn).mp hl
          refine (view_lookup_ok hn).mpr ⟨x, ?_, hxw⟩
          rw [entryNamed, hcut.entries p, if_pos hpd, find_dropName hne, ← hpd]
          exact hx
        · rw [hcut.vName, view_lookup_congr_at, hl]
          rw [hcut.entries p, if_neg hpd]

theorem Wf.cut (tree : Prop) (h : Wf s up base extra) (he : s.entryNamed d name = some e)
    (hok : CutOk cache s d e) :
    ∃ s', s.removeEntry d e = some s' ∧ Outcome tree cache up base extra s s' := by
  obtain ⟨s', hs', hwf, hcut⟩ := h.removeEntry he hok.1
  have hleaf (w : VPtr) : up w ≠ some e.vn := by
    intro hw
    obtain ⟨x, hx, -⟩ := h.entry w e.vn hw
    rw [hok.1] at hx
    cases hx
  refine ⟨s', hs', _, hwf, hcut.root, hcut.cwd, hcut.fds, fun _ hroot => ⟨hroot.detach hleaf, ?_⟩,
    fun hcache hc => hc.cut he (hok.2 hcache) hcut⟩
  intro w hw
  by_cases hwe : w = e.vn
  · rw [hwe]
    exact .inr hok.1
  · exact .inl (hw.detach hleaf hwe)

theorem Coherent.move {t : VPtr} {dname : Name} (hc : Coherent s)
    (he : s.entryNamed d name = some found) (hnot : ¬s.CachedAs found.vn d found.name)
    (hlen : dname.length ≤ 31)
    (hfresh : dname ≠ dot → ∀ k, ∀ w ∈ s.vnodeHash k, (s.vnode w).vParent = some t →
      (s.vnode w).vName ≠ dname) : Coherent (s.moveEntry d found t dname) := by
  have htake : dname.take 255 = dname := take_of_length_le (by omega)
  have hs : SameRefs s (s.moveEntry d found t dname) :=
    (sameRefs_setEntries s d _).trans (sameRefs_setEntries _ t _)
  have hentries (c : VPtr) : ((s.moveEntry d found t dname).vnode c).entries =
      if c = t then ⟨dname, found.vn⟩ :: ((s.setEntries d (dropName found.name)).vnode t).entries
      else ((s.setEntries d (dropName found.name)).vnode c).entries := by
    rw [State.moveEntry, entries_setEntries, htake]
  have hdrop (c : VPtr) : ((s.setEntries d (dropName found.name)).vnode c).entries.Sublist
      (s.vnode c).entries := by
    rw [entries_setEntries]
    split_ifs with hcd
    · rw [hcd]
      exact dropName_sublist _ _
    · exact Sublist.refl _
  refine ⟨fun c x hx => ?_, fun k w hw => ?_⟩
  · rw [hentries c] at hx
    split_ifs at hx with hct
    · rcases mem_cons.mp hx with rfl | hx
      · exact hlen
      · exact hc.short t x ((hdrop t).subset hx)
    · exact hc.short c x ((hdrop c).subset hx)
  · obtain ⟨p, hp, hk, hl⟩ := hc.hashed k w hw
    rw [hs.vParent, hs.vName]
    refine ⟨p, hp, ?_, ?_⟩
    · rw [hk, vnodeHashFunc, vnodeHashFunc, hs.addr]
    · by_cases hn : (s.vnode w).vName = dot
      · rw [hn] at hl ⊢
        exact hl
      · obtain ⟨x, hx, hxw⟩ := (view_lookup_ok hn).mp hl
        -- the old name of the entry that moves is not in the cache
        have hold : ((s.setEntries d (dropName found.name)).vnode p).entries.find?
            (fun e => e.name = (s.vnode w).vName) = some x := by
          rw [entries_setEntries]
          split_ifs with hpd
          · rw [find_dropName, ← hpd]
            · exact hx
            · intro hname
              have hxf : x = found := by
                rw [hpd, hname, entryNamed_name he, he] at hx
                exact (some.inj hx).symm
              rw [← hxf, hxw] at hnot
              refine hnot ⟨?_, ?_, ?_⟩
              · rw [hxf, ← hname, ← hpd, ← hk]
                exact hw
              · rw [hp, hpd]
              · rw [hxf]
                exact hname
          · exact hx
        refine (view_lookup_ok hn).mpr ⟨x, ?_, hxw⟩
        rw [entryNamed, hentries p]
        split_ifs with hpt
        · rw [find?_cons_of_neg]
          · rw [← hpt]
            exact hold
          · rw [decide_eq_true_eq]
            intro hname
            have hdname : (s.vnode w).vName = dname := hname.symm
            exact hfresh (hdname ▸ hn) k w hw (hpt ▸ hp) hdname
        · exact hold

def Descends (s : State) : VPtr → VPtr → Prop :=
  Relation.ReflTransGen fun a b => ∃ e ∈ (s.vnode a).entries, e.vn = b

theorem Wf.child_iff (h : Wf s up base extra) :
    (∃ e ∈ (s.vnode d).entries, e.vn = v) ↔ Child up d v := by
  refine ⟨?_, h.entry v d⟩
  rintro ⟨e, he, rfl⟩
  exact h.child d e he

theorem Wf.child_eq (h : Wf s up base extra) :
    (fun a b => ∃ e ∈ (s.vnode a).entries, e.vn = b) = Child up := by
  funext a b
  exact propext h.child_iff

theorem Wf.descends_iff (h : Wf s up base extra) : s.Descends v w ↔ Below up v w := by
  rw [Descends, h.child_eq, Below]

/-- What is replaced may be removed, the new name may be made, the target directory is not in what
moves, and the cache does not know the old name. -/
def RenameOk (tree cache : Prop) (s : State) (sdvp : VPtr) (sname : Name) (tdvp : VPtr)
    (dname : Name) : Prop :=
  ∀ found, s.entryNamed sdvp sname = some found →
    (∀ e, s.entryNamed tdvp dname = some e → CutOk cache s tdvp e ∧
      ¬(sdvp = tdvp ∧ holdsLink (s.vnode sdvp).entries dname sname)) ∧
    NewOk tree cache s tdvp dname ∧ (tree → ¬s.Descends found.vn tdvp) ∧
    (cache → ¬s.CachedAs found.vn sdvp sname)

theorem Cuts.cachedAs (hcut : Cuts s d e s') (h : s'.CachedAs v w name) : s.CachedAs v w name := by
  obtain ⟨hmem, hp, hn⟩ := h
  rw [vnodeHashFunc, hcut.addr] at hmem
  exact ⟨(hcut.hash _ v hmem).1, (hcut.vParent v).symm.trans hp, (hcut.vName v).symm.trans hn⟩

theorem Wf.ramfsRename {t : VPtr} {dname : Name} (h : Wf s up base extra)
    (hd : Held up base extra d) (ht : Anchored up base t)
    (hok : RenameOk tree cache s d name t dname) :
    ∃ r s', s.ramfsRename d name t dname = some (r, s') ∧
      Outcome tree cache up base extra s s' := by
  unfold State.ramfsRename
  rw [if_neg (not_not.mpr (h.data d (h.live_of_held hd)))]
  cases hf : s.entryNamed d name with
  | none => exact ⟨_, _, rfl, h.outcome⟩
  | some found =>
    obtain ⟨hcut, hnew, hdesc, hcached⟩ := hok found hf
    have hlive := h.live_of_held (ht.held extra)
    have hup := h.up_entryNamed hf
    have htree (htr : tree) (hroot : Rooted up s.root) :
        Below up s.root t ∧ ¬Below up found.vn t :=
      ⟨h.below_of_linked hroot hlive (hnew.1 htr), fun hb => hdesc htr (h.descends_iff.mpr hb)⟩
    rw [← entryNamed_name hf] at hcached
    dsimp only
    rw [if_neg (not_not.mpr (h.data t hlive))]
    cases he : s.entryNamed t dname with
    | none =>
      refine ⟨_, _, rfl, _, h.moveEntry hf ht, rfl, rfl, rfl, fun htr hroot => ?_,
        fun hcache hc => hc.move hf (hcached hcache) (hnew.2 hcache) ?_⟩
      · obtain ⟨hbt, hnot⟩ := htree htr hroot
        exact ⟨hroot.move (hroot.ne_root hup) hbt hnot, fun w hw => .inl (hw.move hbt hnot)⟩
      · intro hdot k w hw hp hn
        obtain ⟨p, hp', -, hl⟩ := hc.hashed k w hw
        rw [hp, some.injEq] at hp'
        rw [hn, ← hp', view_lookup_ok hdot, he] at hl
        obtain ⟨x, hx, -⟩ := hl
        cases hx
    | some e =>
      obtain ⟨⟨hempty, hone⟩, hlink⟩ := hcut e he
      obtain ⟨s1, hs1, hwf, hcuts⟩ := h.removeEntry he hempty
      have hename := entryNamed_name he
      have hte : t ≠ e.vn := by
        rintro rfl
        have hmem := mem_of_find?_eq_some he
        rw [hempty] at hmem
        cases hmem
      have hleaf (w : VPtr) : up w ≠ some e.vn := by
        intro hw
        obtain ⟨x, hx, -⟩ := h.entry w e.vn hw
        rw [hempty] at hx
        cases hx
      -- the entry that moves is found where it was
      have hf1 : s1.entryNamed d name = some found := by
        rw [entryNamed, hcuts.entries d]
        split_ifs with hdt
        · rw [hename, find_dropName, ← hdt]
          · exact hf
          · intro hname
            exact hlink ⟨hdt, .inl hname.symm⟩
        · exact hf
      have ht1 : Anchored (update up e.vn none) base t := by
        rw [Anchored, update_of_ne hte]
        exact ht
      have hup1 := hwf.up_entryNamed hf1
      dsimp only
      rw [if_neg hlink, hs1]
      refine ⟨_, _, rfl, _, hwf.moveEntry hf1 ht1, hcuts.root, hcuts.cwd, hcuts.fds,
        fun htr hroot => ?_, fun hcache hc => ?_⟩
      · obtain ⟨hbt, hnot⟩ := htree htr hroot
        have hroot1 := hroot.detach hleaf
        have hbt1 := hbt.detach hleaf hte
        have hnot1 : ¬Below (update up e.vn none) found.vn t := fun hb => hnot hb.of_detach
        refine ⟨hroot1.move (hroot1.ne_root hup1) hbt1 hnot1, fun w hw => ?_⟩
        by_cases hwe : w = e.vn
        · rw [hwe]
          exact .inr hempty
        · exact .inl ((hw.detach hleaf hwe).move hbt1 hnot1)
      · have hc1 := hc.cut he (hone hcache) hcuts
        refine hc1.move hf1 (fun hcd => hcached hcache (hcuts.cachedAs hcd)) (hnew.2 hcache) ?_
        intro hdot k w hw hp
        rw [← hename]
        exact hc.not_cached he (hone hcache) hcuts (hename ▸ hdot) hw hp

end State
end Doppio.Vfs
