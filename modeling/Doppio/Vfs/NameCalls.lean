import Doppio.Library.Run
import Doppio.Vfs.NameOps
import Mathlib.Data.List.Perm.Basic

/-! The calls on names: what each of them needs, and what it keeps. -/
namespace Doppio.Vfs
open ParentTree List Option

namespace State

variable {s s' t : State} {v w d : VPtr} {name path : Name} {type : VType} {e found : RamfsEntry}
  {up : VPtr → Option VPtr} {base extra : VPtr → ℕ} {tree cache : Prop}

theorem Wf.sameRefs (h : Wf s up base extra) (hs : SameRefs s s')
    (hentries : ∀ c, (s'.vnode c).entries = (s.vnode c).entries)
    (hunlinked : ∀ c, (s'.vnode c).unlinked = (s.vnode c).unlinked) : Wf s' up base extra := by
  refine h.relink hs (h.filed.congr hentries) (fun _ => rfl)
    (fun c hc => h.anchored c (hentries c ▸ hc)) (fun c hc => ?_) fun c hl hc hr => ?_
  · rw [hunlinked c]
    exact h.linked c hc
  · rw [hunlinked c]
    exact h.removed c hl hc hr

theorem Coherent.sameRefs (h : Coherent s) (hs : SameRefs s s')
    (hentries : ∀ c, (s'.vnode c).entries = (s.vnode c).entries) : Coherent s' :=
  h.congr hentries hs.addr (fun _ _ hv => hs.hash ▸ hv) fun v => ⟨hs.vParent v, hs.vName v⟩

section
variable (h : Outcome tree cache up base extra s t)
include h

theorem Outcome.sameRefs (hs : SameRefs t s')
    (hentries : ∀ c, (s'.vnode c).entries = (t.vnode c).entries)
    (hunlinked : ∀ c, (s'.vnode c).unlinked = (t.vnode c).unlinked) :
    Outcome tree cache up base extra s s' := by
  obtain ⟨up', hwf, hroot, hcwd, hfds, htree, hcache⟩ := h
  exact ⟨up', hwf.sameRefs hs hentries hunlinked, hs.root.trans hroot, hs.cwd.trans hcwd,
    hs.fds.trans hfds, htree, fun h hc => (hcache h hc).sameRefs hs hentries⟩

theorem Outcome.setTarget (v : VPtr) (target : Name) :
    Outcome tree cache up base extra s (t.setVnode v fun n => { n with target }) := by
  refine h.sameRefs ?_ (proj_setVnode Vnode.entries rfl) (proj_setVnode Vnode.unlinked rfl)
  apply sameRefs_setVnode
  exact fun _ => rfl

theorem Outcome.useCdev (v : VPtr) (hasCdev : Bool) :
    Outcome tree cache up base extra s (t.useCdev v hasCdev) := by
  unfold State.useCdev
  split_ifs
  · refine h.sameRefs ?_ (proj_setVnode Vnode.entries rfl) (proj_setVnode Vnode.unlinked rfl)
    apply sameRefs_setVnode
    exact fun _ => rfl
  · exact h

end

/-- A vnode comes with a reference; with a coherent cache it has an entry or is held for good. -/
def Reaches (cache : Prop) (up : VPtr → Option VPtr) (base extra : VPtr → ℕ) (s : State) :
    Except Errno VPtr → Prop
  | .ok v => Held up base extra v ∧ Wf s up base (addRef extra v) ∧ (cache → Anchored up base v)
  | .error _ => Wf s up base extra

theorem Wf.vfsLookup (h : Wf s up base extra) (hc : cache → Coherent s) (path : Name) :
    ∃ r t, s.vfsLookup true path (some s.cwd) = some (r, t) ∧ Agrees s t ∧
      (cache → Coherent t) ∧ Reaches cache up base extra t r := by
  have hcwd : Anchored up base s.cwd := .inr h.cwd_base
  obtain ⟨r, t, hr, ha, hcoh, hafter⟩ :=
    h.vfsLookupImpl true 9 true path (some s.cwd) fun b hb => by
      rw [← some.inj hb, h.cwd_dir]
      exact ⟨hcwd.held extra, by decide⟩
  refine ⟨r, t, hr, ha, fun hcache => (hcoh (hc hcache)).2, ?_⟩
  cases r with
  | error e => exact hafter
  | ok v =>
    refine ⟨hafter.1, hafter.2, fun hcache => ?_⟩
    have hentries (c : VPtr) (e : RamfsEntry) (he : e ∈ s.view.entries c) :
        Anchored up base e.vn := by
      rw [Anchored, h.child c e he]
      exact .inl (some_ne_none c)
    have hroot : Anchored up base s.view.root := .inr h.root_base
    refine View.namei_mem hentries hroot 9 (fun b hb => ?_) (hcoh (hc hcache)).1.symm
    cases hb
    exact hcwd

theorem Wf.lookupParent (h : Wf s up base extra) (hc : cache → Coherent s) (path : Name) :
    ∃ r t, s.lookupParent path = some (r, t) ∧ Agrees s t ∧ (cache → Coherent t) ∧
      Reaches cache up base extra t r := h.vfsLookup hc _

theorem Wf.anchored_new (h : Wf s up base (addRef extra d)) (hmode : tree ∨ cache)
    (hanch : cache → Anchored up base d) (hok : NewOk tree cache s d name) :
    Anchored up base d := by
  rcases hmode with htree | hcache
  · refine h.anchored_of_linked (h.live_of_extra ?_) (hok.1 htree)
    rw [addRef_self]
    exact Nat.succ_ne_zero _
  · exact hanch hcache

section
variable (h : Wf s up base extra)
include h

theorem Wf.atParent {α : Type} {op : State → VPtr → Name → Option (Except Errno α × State)}
    (hc : cache → Coherent s)
    (hop : ∀ d t, s.lookupParent path = some (.ok d, t) → (cache → Coherent t) →
      Reaches cache up base extra t (.ok d) → ∃ r s', op t d (childName path) = some (r, s') ∧
        Outcome tree cache up base (addRef extra d) t s') :
    ∃ r s', s.atParent path op = some (r, s') ∧ Outcome tree cache up base extra s s' := by
  obtain ⟨r, t, hr, ha, hcoh, hafter⟩ := h.lookupParent hc path
  unfold State.atParent
  rw [hr]
  cases r with
  | error e => exact ⟨_, _, rfl, hafter.outcome_agrees ha fun hcache _ => hcoh hcache⟩
  | ok d =>
    dsimp only
    split_ifs with hdev
    · exact ⟨_, _, rfl, (hafter.2.1.outcome_agrees ha fun hcache _ => hcoh hcache).vput⟩
    · obtain ⟨r', s', hr', hout⟩ := hop d t hr hcoh hafter
      rw [hr']
      exact ⟨_, _, rfl, (hout.of_agrees ha fun hcache _ => hcoh hcache).vput⟩

theorem Wf.ramfsRemove (hd : Held up base extra d)
    (hok : ∀ e, s.entryNamed d name = some e → CutOk cache s d e) :
    ∃ r s', s.ramfsRemove d name = some (r, s') ∧ Outcome tree cache up base extra s s' := by
  unfold State.ramfsRemove
  rw [if_neg (not_not.mpr (h.data d (h.live_of_held hd)))]
  cases he : s.entryNamed d name with
  | none => exact ⟨_, _, rfl, h.outcome⟩
  | some e =>
    obtain ⟨s', hs', hout⟩ := h.cut tree he (hok e he)
    dsimp only
    rw [hs']
    exact ⟨_, _, rfl, hout⟩

theorem Wf.ramfsRmdir (hd : Held up base extra d)
    (hok : ∀ e, s.entryNamed d name = some e → (s.vnode e.vn).entries = [] → CutOk cache s d e) :
    ∃ r s', s.ramfsRmdir d name = some (r, s') ∧ Outcome tree cache up base extra s s' := by
  unfold State.ramfsRmdir
  rw [if_neg (not_not.mpr (h.data d (h.live_of_held hd)))]
  cases he : s.entryNamed d name with
  | none => exact ⟨_, _, rfl, h.outcome⟩
  | some e =>
    have hlive : s.Live e.vn :=
      h.live_of_up (by rw [h.up_entryNamed he]; exact some_ne_none d)
    dsimp only
    rw [if_neg (not_not.mpr (h.data e.vn hlive))]
    split_ifs with hempty
    · exact ⟨_, _, rfl, h.outcome⟩
    · obtain ⟨s', hs', hout⟩ := h.cut tree he (hok e he (not_not.mp hempty))
      rw [hs']
      exact ⟨_, _, rfl, hout⟩

theorem Wf.ramfsCreate (hd : Anchored up base d) (hok : NewOk tree cache s d name) (type : VType) :
    ∃ r s', s.ramfsCreate d name type = some (r, s') ∧ match r with
      | .ok v => Outcome tree cache up base (addRef extra v) s s' ∧ s'.Live v ∧
        (cache → Coherent s → s'.view.lookup d name = .ok v)
      | .error _ => Outcome tree cache up base extra s s' := by
  obtain ⟨r, t, hr, hout, hnew⟩ := h.ramfsNew hd hok type
  unfold State.ramfsCreate
  rw [hr]
  cases r with
  | error e => exact ⟨_, _, rfl, hout⟩
  | ok v =>
    obtain ⟨hlive, hlook⟩ := hnew v rfl
    refine ⟨_, _, rfl, ?_, ?_, fun hcache hc => ?_⟩
    · exact hout.agrees (fun up' hwf => hwf.vref hlive) (agrees_vref t v) fun _ hc => hc.vref v
    · rw [Live, vref_eq hlive, vnode_setVnode_self]
      exact Nat.succ_ne_zero _
    · rw [(agrees_vref t v).view]
      exact hlook hcache hc

end

theorem Outcome.vfsHashInsert (h : Outcome tree cache up base extra s t) (hv : t.Live v)
    (hlook : cache → Coherent s → t.view.lookup d name = .ok v) :
    Outcome tree cache up base extra s (t.vfsHashInsert d name v) := by
  obtain ⟨up', hwf, hroot, hcwd, hfds, htree, hcache⟩ := h
  exact ⟨up', hwf.vfsHashInsert hv d name, hroot, hcwd, hfds, htree,
    fun hc hs => (hcache hc hs).vfsHashInsert (hlook hc hs)⟩

theorem Wf.vfsRmdir (tree : Prop) (h : Wf s up base extra) (hc : cache → Coherent s)
    (hok : ∀ d t, s.lookupParent path = some (.ok d, t) →
      ∀ e, t.entryNamed d (childName path) = some e → (t.vnode e.vn).entries = [] →
        CutOk cache t d e) :
    ∃ r s', s.vfsRmdir path = some (r, s') ∧ Outcome tree cache up base extra s s' := by
  refine h.atParent hc fun d t hd _ hreach => ?_
  obtain ⟨hheld, hwf, -⟩ := hreach
  exact hwf.ramfsRmdir (hheld.addRef d) (hok d t hd)

theorem Wf.vfsUnlink (tree : Prop) (h : Wf s up base extra) (hc : cache → Coherent s)
    (hok : ∀ d t, s.lookupParent path = some (.ok d, t) →
      ∀ e, t.entryNamed d (childName path) = some e → CutOk cache t d e) :
    ∃ r s', s.vfsUnlink path = some (r, s') ∧ Outcome tree cache up base extra s s' := by
  refine h.atParent hc fun d t hd _ hreach => ?_
  obtain ⟨hheld, hwf, -⟩ := hreach
  exact hwf.ramfsRemove (hheld.addRef d) (hok d t hd)

section
variable (h : Wf s up base extra)
include h

theorem Wf.makeSymlink (hd : Anchored up base d)
    (hok : NewOk tree cache s d name) (target : Name) :
    ∃ r s', makeSymlink target s d name = some (r, s') ∧ Outcome tree cache up base extra s s' := by
  obtain ⟨r, t, hr, hafter⟩ := h.ramfsCreate hd hok .lnk
  unfold State.makeSymlink
  rw [hr]
  cases r with
  | error e => exact ⟨_, _, rfl, hafter⟩
  | ok v =>
    obtain ⟨hout, hlive, hlook⟩ := hafter
    exact ⟨_, _, rfl, ((hout.vfsHashInsert hlive hlook).setTarget v target).vput⟩

theorem Wf.vfsMkdir (hc : cache → Coherent s) (hmode : tree ∨ cache)
    (hok : ∀ d t, s.lookupParent path = some (.ok d, t) → NewOk tree cache t d (childName path)) :
    ∃ r s', s.vfsMkdir path = some (r, s') ∧ Outcome tree cache up base extra s s' := by
  refine h.atParent hc fun d t hd _ hreach => ?_
  obtain ⟨-, hwf, hanch⟩ := hreach
  obtain ⟨r, s', hr, hout, -⟩ :=
    hwf.ramfsNew (hwf.anchored_new hmode hanch (hok d t hd)) (hok d t hd) .dir
  exact ⟨r, s', hr, hout⟩

theorem Wf.vfsSymlink (hc : cache → Coherent s) (hmode : tree ∨ cache)
    (hok : ∀ d t, s.lookupParent path = some (.ok d, t) → NewOk tree cache t d (childName path))
    (target : Name) :
    ∃ r s', s.vfsSymlink target path = some (r, s') ∧ Outcome tree cache up base extra s s' := by
  refine h.atParent hc fun d t hd _ hreach => ?_
  obtain ⟨-, hwf, hanch⟩ := hreach
  exact hwf.makeSymlink (hwf.anchored_new hmode hanch (hok d t hd)) (hok d t hd) target

theorem Wf.vfsRename {oldpath newpath : Name} (hc : cache → Coherent s)
    (hmode : tree ∨ cache) (hok : ∀ d t d' u, s.lookupParent oldpath = some (.ok d, t) →
      t.lookupParent newpath = some (.ok d', u) →
      RenameOk tree cache u d (childName oldpath) d' (childName newpath)) :
    ∃ r s', s.vfsRename oldpath newpath = some (r, s') ∧ Outcome tree cache up base extra s s' := by
  obtain ⟨r, t, hr, ha, hcoh, hafter⟩ := h.lookupParent hc oldpath
  unfold State.vfsRename
  rw [hr]
  cases r with
  | error e => exact ⟨_, _, rfl, hafter.outcome_agrees ha fun hcache _ => hcoh hcache⟩
  | ok d =>
    obtain ⟨hheld, hwf, -⟩ := hafter
    obtain ⟨r', u, hr', ha', hcoh', hafter'⟩ := hwf.lookupParent hcoh newpath
    have hagree := ha.trans ha'
    dsimp only
    rw [hr']
    cases r' with
    | error e =>
      exact ⟨_, _, rfl, (hafter'.outcome_agrees hagree fun hcache _ => hcoh' hcache).vput⟩
    | ok d' =>
      obtain ⟨-, hwf', hanch⟩ := hafter'
      have hwf'' := hwf'
      rw [addRef_comm] at hwf''
      dsimp only
      split_ifs with hdev
      · exact ⟨_, _, rfl, (hwf''.outcome_agrees hagree fun hcache _ => hcoh' hcache).vput.vput⟩
      · have hren := hok d t d' u hr hr'
        -- without an entry of the old name nothing is made in the target directory
        by_cases hf : u.entryNamed d (childName oldpath) = none
        · have hlive := hwf''.live_of_held ((hheld.addRef d').addRef d)
          have heq : u.ramfsRename d (childName oldpath) d' (childName newpath) =
              some (.error .ENOENT, u) := by
            rw [State.ramfsRename, if_neg (not_not.mpr (hwf''.data d hlive)), hf]
          rw [heq]
          exact ⟨_, _, rfl, (hwf''.outcome_agrees hagree fun hcache _ => hcoh' hcache).vput.vput⟩
        · obtain ⟨found, hfound⟩ := ne_none_iff_exists'.mp hf
          have hd' := hwf'.anchored_new hmode hanch (hren found hfound).2.1
          obtain ⟨r'', s', hr'', hout⟩ := hwf''.ramfsRename ((hheld.addRef d').addRef d) hd' hren
          rw [hr'']
          exact ⟨_, _, rfl, (hout.of_agrees hagree fun hcache _ => hcoh' hcache).vput.vput⟩

end

/-- The tree and the cache after a call, with a reference to its vnode. -/
def Opens (tree cache : Prop) (up : VPtr → Option VPtr) (base extra : VPtr → ℕ) (s : State) :
    Except Errno VPtr × State → Prop
  | (.ok v, s') => Outcome tree cache up base (addRef extra v) s s'
  | (.error _, s') => Outcome tree cache up base extra s s'

variable {p : Except Errno VPtr × State} {args : OpenArgs}

theorem Wf.openCreate (h : Wf s up base extra) (hc : cache → Coherent s) (hmode : tree ∨ cache)
    (hok : ∀ d t, s.lookupParent path = some (.ok d, t) → NewOk tree cache t d (childName path))
    (hp : s.openCreate path args = some p) : Opens tree cache up base extra s p := by
  obtain ⟨r, t, hr, ha, hcoh, hafter⟩ := h.lookupParent hc path
  have hsame (extra : VPtr → ℕ) (hwf : Wf t up base extra) :
      Outcome tree cache up base extra s t := hwf.outcome_agrees ha fun hcache _ => hcoh hcache
  unfold State.openCreate at hp
  rw [hr] at hp
  cases r with
  | error e =>
    cases hp
    exact hsame extra hafter
  | ok d =>
    obtain ⟨-, hwf, hanch⟩ := hafter
    have hnew := hok d t hr
    dsimp only at hp
    by_cases hmay : args.mayCreate
    · split_ifs at hp with hdev
      obtain ⟨r', u, hr', hafter'⟩ :=
        hwf.ramfsCreate (hwf.anchored_new hmode hanch hnew) hnew args.type
      rw [hr'] at hp
      cases r' with
      | error e =>
        cases hp
        exact (hafter'.of_agrees ha fun hcache _ => hcoh hcache).vput
      | ok v =>
        obtain ⟨hout, hlive, hlook⟩ := hafter'
        cases hp
        have hins := hout.vfsHashInsert hlive hlook
        rw [addRef_comm] at hins
        exact (hins.of_agrees ha fun hcache _ => hcoh hcache).vput
    · rw [if_pos hmay] at hp
      cases hp
      exact (hsame _ hwf).vput

theorem Wf.openVnode (h : Wf s up base extra) (hc : cache → Coherent s) (hmode : tree ∨ cache)
    (hok : args.creat = true →
      ∀ t, s.vfsLookup true (sanitizePath path) (some s.cwd) = some (.error .ENOENT, t) →
        ∀ d u, t.lookupParent path = some (.ok d, u) → NewOk tree cache u d (childName path))
    (hp : s.openVnode path args = some p) : Opens tree cache up base extra s p := by
  obtain ⟨r, t, hr, ha, hcoh, hafter⟩ := h.vfsLookup hc (sanitizePath path)
  have hsame (extra : VPtr → ℕ) (hwf : Wf t up base extra) :
      Outcome tree cache up base extra s t := hwf.outcome_agrees ha fun hcache _ => hcoh hcache
  unfold State.openVnode at hp
  rw [hr] at hp
  cases r with
  | error e =>
    dsimp only at hp
    split_ifs at hp with hcreate
    · obtain ⟨rfl, hcreat⟩ := hcreate
      have hopen := hafter.openCreate hcoh hmode (hok hcreat t hr) hp
      obtain ⟨r', s'⟩ := p
      cases r' with
      | error e => exact hopen.of_agrees ha fun hcache _ => hcoh hcache
      | ok v => exact hopen.of_agrees ha fun hcache _ => hcoh hcache
    · cases hp
      exact hsame extra hafter
  | ok v =>
    obtain ⟨-, hwf, -⟩ := hafter
    split_ifs at hp with hexcl
    · cases hp
      exact (hsame _ hwf).vput
    · cases hp
      exact hsame _ hwf

def fdRefs (s : State) (v : VPtr) : ℕ := s.fds.count v

/-- What one call keeps: the books, the tree with every vnode that is not empty, the coherence of
the cache. -/
def Advances (tree cache : Prop) (up : VPtr → Option VPtr) (base : VPtr → ℕ) (s s' : State) :
    Prop :=
  ∃ up', Wf s' up' base s'.fdRefs ∧ s'.root = s.root ∧
    (tree → Rooted up s.root → Rooted up' s.root ∧
      ∀ w, Below up s.root w → Below up' s.root w ∨ (s.vnode w).entries = []) ∧
    (cache → Coherent s → Coherent s')

theorem Outcome.advances (h : Outcome tree cache up base s.fdRefs s s') :
    Advances tree cache up base s s' := by
  obtain ⟨up', hwf, hroot, -, hfds, htree, hcache⟩ := h
  refine ⟨up', ?_, hroot, htree, hcache⟩
  have hrefs : s'.fdRefs = s.fdRefs := by
    funext v
    rw [fdRefs, fdRefs, hfds]
  rw [hrefs]
  exact hwf

theorem Wf.setFds (h : Wf s up base extra) (fds : List VPtr) :
    Wf { s with fds } up base extra :=
  { h with }

theorem Coherent.setFds (h : Coherent s) (fds : List VPtr) : Coherent { s with fds } :=
  ⟨h.short, h.hashed⟩

theorem Outcome.addFd (h : Outcome tree cache up base (addRef s.fdRefs v) s t) :
    Advances tree cache up base s { t with fds := t.fds ++ [v] } := by
  obtain ⟨up', hwf, hroot, -, hfds, htree, hcache⟩ := h
  refine ⟨up', ?_, hroot, htree, fun hc hs => (hcache hc hs).setFds _⟩
  have hrefs : fdRefs { t with fds := t.fds ++ [v] } = addRef s.fdRefs v := by
    funext w
    show (t.fds ++ [v]).count w = _
    rw [hfds, count_append, addRef]
    split_ifs with hw
    · rw [hw, count_singleton_self]
      rfl
    · rw [count_singleton, if_neg (by simpa using Ne.symm hw)]
      rfl
  rw [hrefs]
  exact hwf.setFds _

theorem Wf.vfsOpen (h : Wf s up base s.fdRefs) (hc : cache → Coherent s) (hmode : tree ∨ cache)
    (hok : args.creat = true →
      ∀ t, s.vfsLookup true (sanitizePath path) (some s.cwd) = some (.error .ENOENT, t) →
        ∀ d u, t.lookupParent path = some (.ok d, u) → NewOk tree cache u d (childName path))
    (hp : s.vfsOpen path args = some p) : Advances tree cache up base s p.2 := by
  unfold State.vfsOpen at hp
  split at hp
  · cases hp
  · next e t hopen =>
    cases hp
    exact (h.openVnode hc hmode hok hopen).advances
  · next v t hopen =>
    have hout : Outcome tree cache up base (addRef s.fdRefs v) s t :=
      h.openVnode hc hmode hok hopen
    by_cases hmay : args.mayOpen
    · have hdev := hout.useCdev v args.hasCdev
      split_ifs at hp with hfd
      · cases hp
        exact hdev.addFd
      · cases hp
        exact hdev.vput.advances
    · rw [if_pos hmay] at hp
      cases hp
      exact hout.vput.advances

theorem Wf.vfsClose (tree cache : Prop) (h : Wf s up base s.fdRefs) (fd : ℕ) :
    ∃ r s', s.vfsClose fd = some (r, s') ∧ Advances tree cache up base s s' := by
  unfold State.vfsClose
  cases hfd : s.fds[fd]? with
  | none => exact ⟨_, _, rfl, h.outcome.advances⟩
  | some v =>
    have hrefs : s.fdRefs = addRef (fdRefs { s with fds := s.fds.eraseIdx fd }) v := by
      funext w
      obtain ⟨hlt, hget⟩ := List.getElem?_eq_some_iff.mp hfd
      have hcount := (getElem_cons_eraseIdx_perm hlt).count_eq w
      rw [fdRefs, ← hcount, count_cons, addRef, fdRefs]
      split_ifs with hv hw hw <;> simp_all
    have hwf := h.setFds (s.fds.eraseIdx fd)
    rw [hrefs] at hwf
    have hput := hwf.vput
    refine ⟨_, _, rfl, up, ?_, root_vput _ v, fun _ hr => ⟨hr, fun w hw => .inl hw⟩,
      fun _ hc => (hc.setFds _).vput hwf⟩
    rw [show fdRefs (State.vput { s with fds := s.fds.eraseIdx fd } v) =
      fdRefs { s with fds := s.fds.eraseIdx fd } by funext w; rw [fdRefs, fds_vput, fdRefs]]
    exact hput

end State

def Admissible (tree cache : Prop) (s : State) : Op → Prop
  | .open path args => args.creat = true →
    ∀ t, s.vfsLookup true (sanitizePath path) (some s.cwd) = some (.error .ENOENT, t) →
      ∀ d u, t.lookupParent path = some (.ok d, u) →
        State.NewOk tree cache u d (State.childName path)
  | .close _ => True
  | .mkdir path => ∀ d t, s.lookupParent path = some (.ok d, t) →
    State.NewOk tree cache t d (State.childName path)
  | .symlink _ path => ∀ d t, s.lookupParent path = some (.ok d, t) →
    State.NewOk tree cache t d (State.childName path)
  | .rmdir path => ∀ d t, s.lookupParent path = some (.ok d, t) →
    ∀ e, t.entryNamed d (State.childName path) = some e → (t.vnode e.vn).entries = [] →
      State.CutOk cache t d e
  | .unlink path => ∀ d t, s.lookupParent path = some (.ok d, t) →
    ∀ e, t.entryNamed d (State.childName path) = some e → State.CutOk cache t d e
  | .rename oldpath newpath => ∀ d t d' u, s.lookupParent oldpath = some (.ok d, t) →
    t.lookupParent newpath = some (.ok d', u) →
      State.RenameOk tree cache u d (State.childName oldpath) d' (State.childName newpath)

def Runs (tree cache : Prop) : State → State → Prop :=
  Run.Reaches (fun s op s' => step s op = some s') (Admissible tree cache)

namespace State

theorem Wf.call {op : Op} (h : Wf s up base s.fdRefs) (hc : cache → Coherent s)
    (hmode : tree ∨ cache) (hok : Admissible tree cache s op)
    (hop : ∀ path args, op ≠ .open path args) :
    ∃ s', step s op = some s' ∧ Advances tree cache up base s s' := by
  cases op with
  | «open» path args => exact absurd rfl (hop path args)
  | close fd =>
    obtain ⟨r, s', hr, hadv⟩ := h.vfsClose tree cache fd
    exact ⟨s', by rw [step, hr]; rfl, hadv⟩
  | mkdir path =>
    obtain ⟨r, s', hr, hout⟩ := h.vfsMkdir hc hmode hok
    exact ⟨s', by rw [step, hr]; rfl, hout.advances⟩
  | rmdir path =>
    obtain ⟨r, s', hr, hout⟩ := h.vfsRmdir tree hc hok
    exact ⟨s', by rw [step, hr]; rfl, hout.advances⟩
  | unlink path =>
    obtain ⟨r, s', hr, hout⟩ := h.vfsUnlink tree hc hok
    exact ⟨s', by rw [step, hr]; rfl, hout.advances⟩
  | rename oldpath newpath =>
    obtain ⟨r, s', hr, hout⟩ := h.vfsRename hc hmode hok
    exact ⟨s', by rw [step, hr]; rfl, hout.advances⟩
  | symlink target path =>
    obtain ⟨r, s', hr, hout⟩ := h.vfsSymlink hc hmode hok target
    exact ⟨s', by rw [step, hr]; rfl, hout.advances⟩

theorem Wf.step {op : Op} (h : Wf s up base s.fdRefs) (hc : cache → Coherent s)
    (hmode : tree ∨ cache) (hok : Admissible tree cache s op) (hs : step s op = some s') :
    Advances tree cache up base s s' := by
  by_cases hop : ∃ path args, op = .open path args
  · obtain ⟨path, args, rfl⟩ := hop
    obtain ⟨p, hp, rfl⟩ := map_eq_some_iff.mp hs
    exact h.vfsOpen hc hmode hok hp
  · obtain ⟨t, ht, hadv⟩ := h.call hc hmode hok fun path args he => hop ⟨path, args, he⟩
    rw [hs, some.injEq] at ht
    rw [ht]
    exact hadv

theorem entries_init (addr : VPtr → ℕ) (v : VPtr) : ((init addr).vnode v).entries = [] := by
  unfold init
  dsimp only
  split_ifs <;> rfl

theorem live_init {addr : VPtr → ℕ} {v : VPtr} (h : (init addr).Live v) : v = 0 := by
  by_contra hv
  refine h ?_
  unfold init
  dsimp only
  rw [if_neg hv]
  rfl

theorem init_wf (addr : VPtr → ℕ) :
    Wf (init addr) (fun _ => none) (fun v => if v = 0 then 2 else 0) (init addr).fdRefs where
  child d e he := by
    rw [entries_init] at he
    cases he
  entry v d hv := by cases hv
  nodup d := by
    rw [entries_init]
    exact nodup_nil
  count v := by
    rw [if_pos rfl]
    unfold init fdRefs
    dsimp only
    split_ifs <;> rfl
  data v hv := by
    rw [live_init hv]
    rfl
  anchored v hv := absurd (entries_init addr v) hv
  linked v hv := absurd rfl hv
  removed v hv _ hne := absurd (live_init hv) hne
  root_base := Nat.succ_ne_zero 1
  cwd_base := Nat.succ_ne_zero 1
  root_dir := rfl
  cwd_dir := rfl
  fresh v hv hl := by
    rw [live_init hl] at hv
    exact absurd hv (Nat.not_succ_le_zero 0)
  free v hv := by cases hv
  free_nodup := nodup_nil
  hashed k v hv := by cases hv

end State
end Doppio.Vfs
