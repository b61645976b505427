import Doppio.Vfs.VnodeRefs

/-! What a lookup finds. A path names a file through entries and targets of symbolic links only;
`vfs_lookup` takes a reference to that file where the name cache agrees with the directories, and
always keeps the books of the vnodes. -/
namespace Doppio.Vfs
open List Option

/-- What the meaning of a path depends on. -/
structure View where
  entries : VPtr → List RamfsEntry
  vtype : VPtr → VType
  target : VPtr → Name
  root : VPtr

namespace View

def lookup (t : View) (d : VPtr) (name : Name) : Except Errno VPtr :=
  if name = dot then .ok d
  else
    match (t.entries d).find? fun e => e.name = name with
    | some e => .ok e.vn
    | none => .error .ENOENT

/-- A symbolic link in `parent` stands for what its target names. -/
def follow (t : View) (resolve : Name → Option VPtr → Except Errno VPtr) (curr : VPtr)
    (parent : Option VPtr) : Except Errno VPtr :=
  if t.vtype curr = .lnk then
    let target := (t.target curr).take 511
    resolve target (if target.head? = some slash then some t.root else parent)
  else .ok curr

def walk (t : View) (resolve : Name → Option VPtr → Except Errno VPtr) (followLast : Bool) :
    List Name → VPtr → Option VPtr → Except Errno VPtr
  | [], curr, parent => if followLast then t.follow resolve curr parent else .ok curr
  | name :: rest, curr, parent =>
    match t.follow resolve curr parent with
    | .error e => .error e
    | .ok curr =>
      if t.vtype curr ≠ .dir then .error .ENOTDIR
      else
        match t.lookup curr name with
        | .error e => .error e
        | .ok found => walk t resolve followLast rest found (some curr)

/-- What a path means; so many symbolic links may be nested. -/
def namei (t : View) : ℕ → Bool → Name → Option VPtr → Except Errno VPtr
  | 0, _, _, _ => .error .ELOOP
  | levels + 1, followLast, path, base =>
    if path = [] then .error .ENOENT
    else
      match if path.head? = some slash then some t.root else base with
      | none => .error .ENOENT
      | some curr => t.walk (t.namei levels true) followLast (components path) curr none

end View

namespace State

def view (s : State) : View where
  entries := fun v => (s.vnode v).entries
  vtype := fun v => (s.vnode v).vtype
  target := fun v => (s.vnode v).target
  root := s.root

variable {s s' : State} {v w d curr : VPtr} {name : Name}
  {up : VPtr → Option VPtr} {base extra extra' : VPtr → ℕ}

theorem Agrees.view (h : Agrees s s') : s'.view = s.view := by
  simp only [State.view, h.entries, h.vtype, h.target, h.root]

/-- What the cache has for a name is what the directory has, and no name is too long for it. -/
structure Coherent (s : State) : Prop where
  short : ∀ d, ∀ e ∈ (s.vnode d).entries, e.name.length ≤ 31
  hashed : ∀ k, ∀ v ∈ s.vnodeHash k, ∃ p, (s.vnode v).vParent = some p ∧
    k = s.vnodeHashFunc p (s.vnode v).vName ∧ s.view.lookup p (s.vnode v).vName = .ok v

theorem view_lookup_congr (h : ∀ d, (s'.vnode d).entries = (s.vnode d).entries) (d : VPtr)
    (name : Name) : s'.view.lookup d name = s.view.lookup d name := by
  simp only [View.lookup, view, h]

theorem mem_vfsHashInsert {k : ℕ} (h : w ∈ (s.vfsHashInsert d name v).vnodeHash k) :
    (w = v ∧ k = s.vnodeHashFunc d name) ∨ (w ≠ v ∧ w ∈ s.vnodeHash k) := by
  have hmem (hw : w ∈ (s.unhash v).vnodeHash k) : w ≠ v ∧ w ∈ s.vnodeHash k :=
    (mem_unhash.mp hw).symm
  change w ∈ Function.update (s.unhash v).vnodeHash (s.vnodeHashFunc d name)
    (v :: (s.unhash v).vnodeHash (s.vnodeHashFunc d name)) k at h
  rw [Function.update_apply] at h
  split_ifs at h with hk
  · rcases mem_cons.mp h with hw | hw
    · exact .inl ⟨hw, hk⟩
    · exact .inr (hmem (hk ▸ hw))
  · exact .inr (hmem h)

theorem vnode_vfsHashInsert (s : State) (d : VPtr) (name : Name) (v : VPtr) :
    (s.vfsHashInsert d name v).vnode =
      (s.setVnode v fun n => { n with vParent := some d, vName := name.take 31 }).vnode := rfl

theorem agrees_vfsHashInsert (s : State) (d : VPtr) (name : Name) (v : VPtr) :
    Agrees s (s.vfsHashInsert d name v) := by
  refine ⟨fun w => ?_, rfl, rfl, rfl, rfl, rfl, rfl⟩
  rw [vnode_vfsHashInsert]
  exact proj_setVnode Vnode.core rfl w

theorem Wf.vfsHashInsert (h : Wf s up base extra) (hv : s.Live v) (d : VPtr) (name : Name) :
    Wf (s.vfsHashInsert d name v) up base extra := by
  have href (w : VPtr) : ((s.vfsHashInsert d name v).vnode w).refCount = (s.vnode w).refCount := by
    rw [vnode_vfsHashInsert]
    exact proj_setVnode Vnode.refCount rfl w
  refine h.agrees (agrees_vfsHashInsert s d name v) (fun w => ?_) (fun w => ?_) fun k w hw => ?_
  · rw [href w, h.count w]
  · rw [Live, Live, href w]
  · rcases mem_vfsHashInsert hw with ⟨rfl, -⟩ | ⟨-, hw⟩
    · exact hv
    · exact h.hashed k w hw

section
variable (h : Coherent s)
include h

theorem Coherent.congr
    (hentries : ∀ d, (s'.vnode d).entries = (s.vnode d).entries) (haddr : s'.addr = s.addr)
    (hhash : ∀ k, ∀ v ∈ s'.vnodeHash k, v ∈ s.vnodeHash k)
    (hkey : ∀ v, (s'.vnode v).vParent = (s.vnode v).vParent ∧
      (s'.vnode v).vName = (s.vnode v).vName) : Coherent s' where
  short d e he := h.short d e (hentries d ▸ he)
  hashed k v hv := by
    obtain ⟨p, hp, hk, hl⟩ := h.hashed k v (hhash k v hv)
    refine ⟨p, (hkey v).1.trans hp, ?_, ?_⟩
    · rw [(hkey v).2, hk, vnodeHashFunc, vnodeHashFunc, haddr]
    · rw [(hkey v).2, view_lookup_congr hentries, hl]

theorem Coherent.vref (v : VPtr) : Coherent (s.vref v) :=
  h.congr (proj_setVnode Vnode.entries rfl) rfl (fun _ _ hv => hv)
    fun w => ⟨proj_setVnode Vnode.vParent rfl w, proj_setVnode Vnode.vName rfl w⟩

theorem Coherent.vput (hwf : Wf s up base (addRef extra v)) :
    Coherent (s.vput v) :=
  h.congr hwf.entries_vput (addr_vput s v) (fun _ _ hw => mem_hash_vput hw)
    fun w => ⟨(vput_keeps s v w).1, (vput_keeps s v w).2.1⟩

theorem Coherent.length_le (hv : s.view.lookup d name = .ok v) :
    name.length ≤ 31 := by
  rw [View.lookup] at hv
  split_ifs at hv with hdot
  · rw [hdot]
    decide
  · split at hv
    · next e he =>
      have hname : e.name = name := by simpa using find?_some he
      rw [← hname]
      exact h.short d e (mem_of_find?_eq_some he)
    · cases hv

theorem Coherent.vfsHashInsert (hv : s.view.lookup d name = .ok v) :
    Coherent (s.vfsHashInsert d name v) := by
  have hentries := (agrees_vfsHashInsert s d name v).entries
  refine ⟨fun c e he => h.short c e (hentries c ▸ he), fun k w hw => ?_⟩
  rw [vnode_vfsHashInsert]
  rcases mem_vfsHashInsert hw with ⟨rfl, rfl⟩ | ⟨hne, hw⟩
  · rw [vnode_setVnode_self, take_of_length_le (h.length_le hv)]
    refine ⟨d, rfl, rfl, ?_⟩
    rw [view_lookup_congr hentries]
    exact hv
  · rw [vnode_setVnode_of_ne _ _ hne]
    obtain ⟨p, hp, hk, hl⟩ := h.hashed k w hw
    refine ⟨p, hp, hk, ?_⟩
    rw [view_lookup_congr hentries]
    exact hl

end

/-- The vnode has a reference beside the walk's. -/
def Held (up : VPtr → Option VPtr) (base extra : VPtr → ℕ) (v : VPtr) : Prop :=
  up v ≠ none ∨ base v ≠ 0 ∨ extra v ≠ 0

theorem Wf.live_of_held (h : Wf s up base extra) (hv : Held up base extra v) : s.Live v := by
  rcases hv with hv | hv | hv
  · exact h.live_of_up hv
  · exact h.live_of_base hv
  · exact h.live_of_extra hv

theorem Wf.held (h : Wf s up base extra) (hv : s.Live v) : Held up base extra v := by
  by_contra hn
  simp only [Held, not_or, not_not] at hn
  rw [Live, h.count v, if_pos hn.1] at hv
  omega

theorem Held.addRef (h : Held up base extra v) (w : VPtr) : Held up base (addRef extra w) v := by
  rcases h with h | h | h
  · exact .inl h
  · exact .inr (.inl h)
  · refine .inr (.inr ?_)
    unfold Vfs.addRef
    split_ifs <;> omega

theorem Held.of_addRef (h : Held up base (Vfs.addRef extra w) v) (hw : Held up base extra w) :
    Held up base extra v := by
  by_cases hv : v = w
  · rw [hv]
    exact hw
  · rwa [Held, addRef_of_ne extra hv] at h

theorem Wf.two_le_of_held (h : Wf s up base (addRef extra v)) (hv : Held up base extra v) :
    2 ≤ (s.vnode v).refCount := by
  rw [h.count_addRef]
  rcases hv with hv | hv | hv
  · rw [if_neg hv]
    omega
  · omega
  · omega

theorem Wf.agrees_vput (h : Wf s up base (Vfs.addRef extra v)) (hv : Held up base extra v) :
    Agrees s (s.vput v) := State.agrees_vput (h.two_le_of_held hv)

/-- A vnode comes with a reference and the books in order; with a coherent cache it is what the path
means. -/
def Finds (up : VPtr → Option VPtr) (base extra : VPtr → ℕ) (s : State)
    (ideal : Except Errno VPtr) (out : Option (Except Errno VPtr × State)) : Prop :=
  ∃ r s', out = some (r, s') ∧ Agrees s s' ∧ (Coherent s → r = ideal ∧ Coherent s') ∧ match r with
    | .ok v => Held up base extra v ∧ Wf s' up base (addRef extra v)
    | .error _ => Wf s' up base extra

variable {out : Option (Except Errno VPtr × State)} {ideal : Except Errno VPtr}

theorem Finds.of_agrees (h : Finds up base extra s' ideal out) (ha : Agrees s s')
    (hcoh : Coherent s → Coherent s') : Finds up base extra s ideal out := by
  obtain ⟨r, t, hr, ha', hc, hafter⟩ := h
  exact ⟨r, t, hr, ha.trans ha', fun hs => hc (hcoh hs), hafter⟩

theorem Finds.congr_ideal {i j : Except Errno VPtr}
    (h : Finds up base extra s i out) (hj : Coherent s → j = i) :
    Finds up base extra s j out := by
  obtain ⟨r, t, hr, ha, hc, hafter⟩ := h
  exact ⟨r, t, hr, ha, fun hs => ⟨(hc hs).1.trans (hj hs).symm, (hc hs).2⟩, hafter⟩

section
variable (h : Wf s up base extra)
include h

theorem Wf.vfsCachedLookup (hv : s.vfsCachedLookup d name = some (v, s')) :
    Held up base extra v ∧ Agrees s s' ∧ Wf s' up base (addRef extra v) ∧
      (s'.vnode v).vParent = some d ∧
      (Coherent s → s.view.lookup d name = .ok v ∧ Coherent s') := by
  unfold State.vfsCachedLookup at hv
  split at hv
  · next u hu =>
    have hmem := mem_of_find?_eq_some hu
    have hkey := find?_some hu
    simp only [decide_eq_true_eq] at hkey
    have hlive := h.hashed _ u hmem
    rw [if_neg hlive, some.injEq, Prod.mk.injEq] at hv
    obtain ⟨rfl, rfl⟩ := hv
    refine ⟨h.held hlive, agrees_setVnode rfl, h.retain hlive, ?_, fun hc => ⟨?_, ?_⟩⟩
    · rw [vnode_setVnode_self]
      exact hkey.1
    · obtain ⟨p, hp, -, hl⟩ := hc.hashed _ u hmem
      rw [hkey.1, some.injEq] at hp
      rw [hp, ← hkey.2, hl]
    · rw [← vref_eq hlive]
      exact hc.vref u
  · cases hv

theorem Wf.ramfsLookup (hd : Held up base extra d) (name : Name) :
    Finds up base extra s (s.view.lookup d name) (s.ramfsLookup d name) := by
  have hfound {u : VPtr} (hu : Held up base extra u) :
      Finds up base extra s (.ok u) (some (.ok u, s.vref u)) :=
    ⟨.ok u, s.vref u, rfl, agrees_vref s u, fun hc => ⟨rfl, hc.vref u⟩, hu,
      h.vref (h.live_of_held hu)⟩
  have hdata := h.data d (h.live_of_held hd)
  unfold State.ramfsLookup View.lookup
  by_cases hdot : name = dot
  · rw [if_pos hdot, if_pos hdot]
    exact hfound hd
  · rw [if_neg hdot, if_neg hdot, if_neg (not_not.mpr hdata)]
    change Finds up base extra s (match s.entryNamed d name with
      | some e => .ok e.vn
      | none => .error .ENOENT) _
    cases he : s.entryNamed d name with
    | some e =>
      refine hfound (.inl ?_)
      rw [h.child d e (mem_of_find?_eq_some he)]
      exact some_ne_none d
    | none => exact ⟨.error .ENOENT, s, rfl, Agrees.refl s, fun hc => ⟨rfl, hc⟩, h⟩

theorem Wf.lookupChild (hd : Held up base extra d) (cached : Bool)
    (name : Name) :
    Finds up base extra s (s.view.lookup d name) (s.lookupChild cached d name) ∧
      ∀ found s', s.lookupChild cached d name = some (.ok found, s') →
        (s'.vnode found).vParent = some d := by
  have hmiss := h.ramfsLookup hd name
  unfold State.lookupChild
  split
  · next found t hhit =>
    split_ifs at hhit
    obtain ⟨hheld, ha, hwf, hparent, hcoh⟩ := h.vfsCachedLookup hhit
    refine ⟨⟨.ok found, t, rfl, ha, fun hc => ⟨((hcoh hc).1).symm, (hcoh hc).2⟩, hheld, hwf⟩, ?_⟩
    intro f t' hft
    obtain ⟨rfl, rfl⟩ := hft
    exact hparent
  · obtain ⟨r, t, hr, ha, hcoh, hafter⟩ := hmiss
    rw [hr]
    cases r with
    | error e =>
      refine ⟨⟨.error e, t, rfl, ha, hcoh, hafter⟩, fun found t' hft => ?_⟩
      cases hft
    | ok found =>
      obtain ⟨hheld, hwf⟩ := hafter
      have hlive := hwf.live_of_held (hheld.addRef found)
      refine ⟨⟨.ok found, t.vfsHashInsert d name found, rfl,
        ha.trans (agrees_vfsHashInsert t d name found), fun hc => ⟨(hcoh hc).1, ?_⟩, hheld,
        hwf.vfsHashInsert hlive d name⟩, ?_⟩
      · refine (hcoh hc).2.vfsHashInsert ?_
        rw [ha.view]
        exact (hcoh hc).1.symm
      · intro f t' hft
        obtain ⟨rfl, rfl⟩ := hft
        rw [vnode_vfsHashInsert, vnode_setVnode_self]

theorem Wf.finds_error (e : Errno) :
    Finds up base extra s (.error e) (some (.error e, s)) :=
  ⟨.error e, s, rfl, Agrees.refl s, fun hc => ⟨rfl, hc⟩, h⟩

end

theorem Finds.vput
    (h : Finds up base (addRef extra curr) s ideal out) (hcurr : Held up base extra curr) :
    Finds up base extra s ideal (out.map fun p => (p.1, p.2.vput curr)) := by
  obtain ⟨r, t, rfl, ha, hc, hafter⟩ := h
  refine ⟨r, t.vput curr, rfl, ?_⟩
  cases r with
  | ok v =>
    obtain ⟨hheld, hwf⟩ := hafter
    rw [addRef_comm] at hwf
    exact ⟨ha.trans (hwf.agrees_vput (hcurr.addRef v)), fun hs => ⟨(hc hs).1, (hc hs).2.vput hwf⟩,
      hheld.of_addRef hcurr, hwf.vput⟩
  | error e =>
    exact ⟨ha.trans (hafter.agrees_vput hcurr), fun hs => ⟨(hc hs).1, (hc hs).2.vput hafter⟩,
      hafter.vput⟩

/-- A link is resolved from the directory it was found in, which is held. -/
def LinkFrom (up : VPtr → Option VPtr) (base extra : VPtr → ℕ) (s : State) (curr : VPtr)
    (parent : Option VPtr) : Prop :=
  (s.vnode curr).vtype = .lnk → ∃ p, parent = some p ∧ (s.vnode curr).vParent = some p ∧
    Held up base extra p ∧ (s.vnode p).vtype ≠ .lnk

/-- The lookups for symbolic links give what their targets mean. -/
def Resolves (up : VPtr → Option VPtr) (base : VPtr → ℕ)
    (ideal : View → Name → Option VPtr → Except Errno VPtr)
    (resolve : VPtr → State → Option (Except Errno VPtr × State)) : Prop :=
  ∀ (extra : VPtr → ℕ) (s : State) (link p : VPtr), Wf s up base extra →
    Held up base extra link → (s.vnode link).vParent = some p → Held up base extra p →
    (s.vnode p).vtype ≠ .lnk → Finds up base extra s
      (ideal s.view ((s.vnode link).target.take 511)
        (if ((s.vnode link).target.take 511).head? = some slash then some s.root else some p))
      (resolve link s)

variable {ideal : View → Name → Option VPtr → Except Errno VPtr}
  {resolve : VPtr → State → Option (Except Errno VPtr × State)} {parent : Option VPtr}

theorem Wf.followLink (h : Wf s up base (addRef extra curr)) (hres : Resolves up base ideal resolve)
    (hcurr : Held up base extra curr) (hlink : LinkFrom up base extra s curr parent) :
    Finds up base extra s (s.view.follow (ideal s.view) curr parent)
      (followLink resolve curr s) := by
  unfold State.followLink View.follow
  by_cases hl : (s.vnode curr).vtype = .lnk
  · obtain ⟨p, rfl, hp, hheld, htype⟩ := hlink hl
    rw [if_pos hl, if_pos (show s.view.vtype curr = .lnk from hl)]
    exact (hres _ s curr p h (hcurr.addRef curr) hp (hheld.addRef curr) htype).vput hcurr
  · rw [if_neg hl, if_neg (show s.view.vtype curr ≠ .lnk from hl)]
    exact ⟨.ok curr, s, rfl, Agrees.refl s, fun hc => ⟨rfl, hc⟩, hcurr, h⟩

theorem Wf.walk (hres : Resolves up base ideal resolve) (cached followLast : Bool)
    (comps : List Name) (h : Wf s up base (addRef extra curr)) (hcurr : Held up base extra curr)
    (hlink : LinkFrom up base extra s curr parent) :
    Finds up base extra s (s.view.walk (ideal s.view) followLast comps curr parent)
      (walk cached resolve followLast comps curr s) := by
  induction comps generalizing curr s parent with
  | nil =>
    cases followLast with
    | true => exact h.followLink hres hcurr hlink
    | false => exact ⟨.ok curr, s, rfl, Agrees.refl s, fun hc => ⟨rfl, hc⟩, hcurr, h⟩
  | cons name rest ih =>
    obtain ⟨r, t, hr, ha, hc, hafter⟩ := h.followLink hres hcurr hlink
    unfold State.walk View.walk
    rw [hr]
    cases r with
    | error e =>
      refine ⟨.error e, t, rfl, ha, fun hs => ⟨?_, (hc hs).2⟩, hafter⟩
      rw [← (hc hs).1]
    | ok c =>
      obtain ⟨hheld, hwf⟩ := hafter
      -- with a coherent cache the ideal walk has come to the same vnode
      refine Finds.congr_ideal (i := ?_) ?_ fun hs => by rw [← (hc hs).1]
      refine Finds.of_agrees ?_ ha fun hs => (hc hs).2
      rw [← ha.view]
      dsimp only
      by_cases hdir : (t.vnode c).vtype = .dir
      · rw [if_neg (not_not.mpr hdir), if_neg (not_not.mpr (show t.view.vtype c = .dir from hdir))]
        obtain ⟨⟨r', u, hr', ha', hc', hafter'⟩, hparent⟩ :=
          hwf.lookupChild (hheld.addRef c) cached name
        rw [hr']
        cases r' with
        | error e =>
          have hfinds := (hafter'.finds_error e).vput hheld
          refine Finds.congr_ideal (i := .error e) ?_ fun hs => by rw [← (hc' hs).1]
          exact hfinds.of_agrees ha' fun hs => (hc' hs).2
        | ok found =>
          obtain ⟨hheld', hwf'⟩ := hafter'
          rw [addRef_comm] at hwf'
          have ha'' := ha'.trans (hwf'.agrees_vput (hheld.addRef found))
          refine Finds.congr_ideal (i := t.view.walk (ideal t.view) followLast rest found (some c)) ?_
            fun hs => by rw [← (hc' hs).1]
          refine Finds.of_agrees ?_ ha'' fun hs => (hc' hs).2.vput hwf'
          rw [← ha''.view]
          refine ih hwf'.vput (hheld'.of_addRef hheld) fun _ => ⟨c, rfl, ?_, hheld, ?_⟩
          · rw [(vput_keeps u c found).1]
            exact hparent found u hr'
          · rw [ha''.vtype c, hdir]
            decide
      · rw [if_pos hdir, if_pos (show t.view.vtype c ≠ .dir from hdir)]
        exact (hwf.finds_error .ENOTDIR).vput hheld

theorem Wf.vfsLookupImpl (cached : Bool) (levels : ℕ) (followLast : Bool) (path : Name)
    (start : Option VPtr) (h : Wf s up base extra)
    (hstart : ∀ b, start = some b → Held up base extra b ∧ (s.vnode b).vtype ≠ .lnk) :
    Finds up base extra s (s.view.namei levels followLast path start)
      (vfsLookupImpl cached levels followLast path start s) := by
  induction levels generalizing extra s followLast path start with
  | zero => exact h.finds_error .ELOOP
  | succ levels ih =>
    have hres : Resolves up base (fun t => t.namei levels true)
        (resolveSymlink fun t b => State.vfsLookupImpl cached levels true t b) := by
      intro extra s link p h hlink hp hheld htype
      unfold resolveSymlink
      rw [if_neg (not_not.mpr (h.data link (h.live_of_held hlink))), hp]
      refine ih true _ _ h fun b hb => ?_
      split_ifs at hb with hslash
      · rw [← some.inj hb, h.root_dir]
        exact ⟨.inr (.inl h.root_base), by decide⟩
      · cases hb
        exact ⟨hheld, htype⟩
    unfold State.vfsLookupImpl View.namei
    by_cases hpath : path = []
    · rw [if_pos hpath, if_pos hpath]
      exact h.finds_error .ENOENT
    · rw [if_neg hpath, if_neg hpath]
      have hfrom (b : VPtr) (hb : (if path.head? = some slash then some s.root else start) = some b) :
          Held up base extra b ∧ (s.vnode b).vtype ≠ .lnk := by
        split_ifs at hb with hslash
        · rw [← some.inj hb, h.root_dir]
          exact ⟨.inr (.inl h.root_base), by decide⟩
        · exact hstart b hb
      change Finds up base extra s (match if path.head? = some slash then some s.root else start with
        | none => .error .ENOENT
        | some curr => _) _
      cases hb : if path.head? = some slash then some s.root else start with
      | none => exact h.finds_error .ENOENT
      | some b =>
        obtain ⟨hheld, htype⟩ := hfrom b hb
        refine Finds.of_agrees ?_ (agrees_vref s b) fun hs => hs.vref b
        rw [← (agrees_vref s b).view]
        refine (h.vref (h.live_of_held hheld)).walk hres cached followLast (components path) hheld
          fun hl => absurd hl ?_
        rw [(agrees_vref s b).vtype b]
        exact htype

end State
end Doppio.Vfs
