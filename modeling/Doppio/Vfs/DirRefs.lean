import Doppio.Vfs.Lookup

/-! What the operations of `ramfs` do to the directories and the books of the vnodes. -/
namespace Doppio.Vfs
variable {l : List RamfsEntry}

open Function Option
open List

theorem dropName_of_find {name : Name} {e : RamfsEntry}
    (he : l.find? (fun e => e.name = name) = some e) :
    ∃ as bs, l = as ++ e :: bs ∧ dropName name l = as ++ bs := by
  obtain ⟨hname, as, bs, rfl, has⟩ := find?_eq_some_iff_append.mp he
  refine ⟨as, bs, rfl, ?_⟩
  rw [dropName, eraseP_append_right _ (by simpa using has), eraseP_cons_of_pos (by simpa using hname)]

theorem mem_dropName {name : Name} {e x : RamfsEntry}
    (hn : (l.map RamfsEntry.vn).Nodup) (he : l.find? (fun e => e.name = name) = some e) :
    x ∈ dropName name l ↔ x ∈ l ∧ x.vn ≠ e.vn := by
  obtain ⟨as, bs, rfl, hdrop⟩ := dropName_of_find he
  rw [hdrop]
  simp only [map_append, map_cons, nodup_append, nodup_cons, List.mem_map, mem_cons] at hn
  obtain ⟨-, ⟨hbs, -⟩, has⟩ := hn
  constructor
  · intro hx
    rcases mem_append.mp hx with hx | hx
    · exact ⟨mem_append_left _ hx, has x.vn ⟨x, hx, rfl⟩ e.vn (.inl rfl)⟩
    · refine ⟨mem_append_right _ (mem_cons_of_mem e hx), fun hv => hbs ⟨x, hx, hv⟩⟩
  · rintro ⟨hx, hv⟩
    rcases mem_append.mp hx with hx | hx
    · exact mem_append_left _ hx
    · rcases mem_cons.mp hx with rfl | hx
      · exact absurd rfl hv
      · exact mem_append_right _ hx

theorem dropName_sublist (name : Name) (l : List RamfsEntry) : (dropName name l).Sublist l :=
  eraseP_sublist

theorem find_dropName {name name' : Name} (h : name' ≠ name) (l : List RamfsEntry) :
    (dropName name l).find? (fun e => e.name = name') = l.find? fun e => e.name = name' := by
  induction l with
  | nil => rfl
  | cons e l ih =>
    by_cases he : e.name = name
    · rw [dropName, eraseP_cons_of_pos (by simpa using he),
        find?_cons_of_neg (by simpa [he] using Ne.symm h)]
    · rw [dropName, eraseP_cons_of_neg (by simpa using he), find?_cons, find?_cons]
      split
      · rfl
      · exact ih

namespace State

variable {s s' : State} {v w d : VPtr} {name : Name} {type : VType} {e found : RamfsEntry}
  {up : VPtr → Option VPtr} {base extra : VPtr → ℕ}

/-- A vnode not in use becomes a new file. -/
structure Allocates (s : State) (type : VType) (v : VPtr) (s' : State) : Prop where
  dead : ¬s.Live v
  vnode : s'.vnode = update s.vnode v
    { Vnode.zero with refCount := 1, vtype := type, hasData := true }
  hash : ∀ k, ∀ w ∈ s'.vnodeHash k, w ∈ s.vnodeHash k
  free : ∀ w ∈ s'.vnodeFreeList, w ∈ s.vnodeFreeList ∧ w ≠ v
  free_nodup : s'.vnodeFreeList.Nodup
  next_le : s.nextVnode ≤ s'.nextVnode
  lt_next : v < s'.nextVnode
  addr : s'.addr = s.addr
  root : s'.root = s.root
  cwd : s'.cwd = s.cwd
  fds : s'.fds = s.fds

theorem Wf.ramfsCreateVnode (h : Wf s up base extra) (type : VType) :
    Allocates s type (s.ramfsCreateVnode type).1 (s.ramfsCreateVnode type).2 := by
  unfold State.ramfsCreateVnode vnodeAlloc
  cases hf : s.vnodeFreeList.find? fun v => (s.vnode v).vReclaimable with
  | some v =>
    have hmem := mem_of_find?_eq_some hf
    obtain ⟨hdead, hlt⟩ := h.free v hmem
    refine ⟨hdead, ?_, fun k w hw => (mem_unhash.mp hw).1, fun w hw => ?_,
      h.free_nodup.erase v, Nat.le_refl _, hlt, rfl, rfl, rfl, rfl⟩
    · simp [setVnode]
    · exact ((Nodup.mem_erase_iff h.free_nodup).mp hw).symm
  | none =>
    refine ⟨h.fresh s.nextVnode (Nat.le_refl _), ?_, fun k w hw => hw, fun w hw => ⟨hw, ?_⟩,
      h.free_nodup, Nat.le_succ _, Nat.lt_succ_self _, rfl, rfl, rfl, rfl⟩
    · simp [setVnode]
    · exact Nat.ne_of_lt (h.free w hw).2

/-- Only entries of directories and marks of removed vnodes differ. -/
structure SameRefs (s s' : State) : Prop where
  refCount : ∀ v, (s'.vnode v).refCount = (s.vnode v).refCount
  vtype : ∀ v, (s'.vnode v).vtype = (s.vnode v).vtype
  hasData : ∀ v, (s'.vnode v).hasData = (s.vnode v).hasData
  vParent : ∀ v, (s'.vnode v).vParent = (s.vnode v).vParent
  vName : ∀ v, (s'.vnode v).vName = (s.vnode v).vName
  hash : s'.vnodeHash = s.vnodeHash
  freeList : s'.vnodeFreeList = s.vnodeFreeList
  nextVnode : s'.nextVnode = s.nextVnode
  addr : s'.addr = s.addr
  root : s'.root = s.root
  cwd : s'.cwd = s.cwd
  fds : s'.fds = s.fds

theorem SameRefs.trans {t : State} (h : SameRefs s s') (h' : SameRefs s' t) : SameRefs s t where
  refCount v := (h'.refCount v).trans (h.refCount v)
  vtype v := (h'.vtype v).trans (h.vtype v)
  hasData v := (h'.hasData v).trans (h.hasData v)
  vParent v := (h'.vParent v).trans (h.vParent v)
  vName v := (h'.vName v).trans (h.vName v)
  hash := h'.hash.trans h.hash
  freeList := h'.freeList.trans h.freeList
  nextVnode := h'.nextVnode.trans h.nextVnode
  addr := h'.addr.trans h.addr
  root := h'.root.trans h.root
  cwd := h'.cwd.trans h.cwd
  fds := h'.fds.trans h.fds

theorem sameRefs_setVnode {f : Vnode → Vnode} (hf : ∀ n,
      ((f n).refCount, (f n).vtype, (f n).hasData, (f n).vParent, (f n).vName) =
        (n.refCount, n.vtype, n.hasData, n.vParent, n.vName)) (s : State) (v : VPtr) :
    SameRefs s (s.setVnode v f) := by
  simp only [Prod.mk.injEq] at hf
  obtain ⟨href, htype, hdata, hparent, hname⟩ := hf (s.vnode v)
  exact ⟨proj_setVnode Vnode.refCount href, proj_setVnode Vnode.vtype htype,
    proj_setVnode Vnode.hasData hdata, proj_setVnode Vnode.vParent hparent,
    proj_setVnode Vnode.vName hname, rfl, rfl, rfl, rfl, rfl, rfl, rfl⟩

theorem sameRefs_setEntries (s : State) (d : VPtr) (f : List RamfsEntry → List RamfsEntry) :
    SameRefs s (s.setEntries d f) := by
  apply sameRefs_setVnode
  exact fun _ => rfl

theorem sameRefs_unlink (s : State) (v : VPtr) :
    SameRefs s (s.setVnode v fun n => { n with unlinked := true, vReclaimable := true }) := by
  apply sameRefs_setVnode
  exact fun _ => rfl

theorem entries_setEntries (s : State) (d c : VPtr) (f : List RamfsEntry → List RamfsEntry) :
    ((s.setEntries d f).vnode c).entries =
      if c = d then f (s.vnode d).entries else (s.vnode c).entries := by
  rw [setEntries, vnode_setVnode]
  split_ifs <;> rfl

theorem unlinked_setEntries (s : State) (d c : VPtr) (f : List RamfsEntry → List RamfsEntry) :
    ((s.setEntries d f).vnode c).unlinked = (s.vnode c).unlinked :=
  proj_setVnode Vnode.unlinked rfl c

theorem entryNamed_name (he : s.entryNamed d name = some e) : e.name = name := by
  simpa using find?_some he

/-- The entry of a vnode is in the directory `up`, and it has no other. -/
structure Filed (s : State) (up : VPtr → Option VPtr) : Prop where
  child : ∀ d, ∀ e ∈ (s.vnode d).entries, up e.vn = some d
  entry : ∀ v d, up v = some d → ∃ e ∈ (s.vnode d).entries, e.vn = v
  nodup : ∀ d, ((s.vnode d).entries.map RamfsEntry.vn).Nodup

theorem mem_entries_cons (s : State) (d c : VPtr) (e x : RamfsEntry) :
    x ∈ ((s.setEntries d (e :: ·)).vnode c).entries ↔ c = d ∧ x = e ∨ x ∈ (s.vnode c).entries := by
  rw [entries_setEntries]
  split_ifs with hc <;> simp [hc]

section
variable (h : Filed s up)
include h

theorem Filed.congr (he : ∀ c, (s'.vnode c).entries = (s.vnode c).entries) : Filed s' up where
  child c := he c ▸ h.child c
  entry v c := he c ▸ h.entry v c
  nodup c := he c ▸ h.nodup c

theorem Filed.cons (hv : up v = none) (d : VPtr) (name : Name) :
    Filed (s.setEntries d (⟨name, v⟩ :: ·)) (update up v (some d)) := by
  have hmem := mem_entries_cons s d (e := ⟨name, v⟩)
  have hne (c : VPtr) (x : RamfsEntry) (hx : x ∈ (s.vnode c).entries) : x.vn ≠ v := by
    rintro rfl
    rw [h.child c x hx] at hv
    cases hv
  refine ⟨fun c x hx => ?_, fun w c hw => ?_, fun c => ?_⟩
  · rcases (hmem c x).mp hx with ⟨rfl, rfl⟩ | hx
    · exact update_self ..
    · rw [update_of_ne (hne c x hx)]
      exact h.child c x hx
  · by_cases hwv : w = v
    · rw [hwv, update_self] at hw
      exact ⟨_, (hmem c _).mpr (.inl ⟨(some.inj hw).symm, rfl⟩), hwv.symm⟩
    · rw [update_of_ne hwv] at hw
      obtain ⟨x, hx, rfl⟩ := h.entry w c hw
      exact ⟨x, (hmem c x).mpr (.inr hx), rfl⟩
  · rw [entries_setEntries]
    split_ifs
    · rw [map_cons, nodup_cons]
      refine ⟨fun hx => ?_, h.nodup d⟩
      obtain ⟨x, hx, hxv⟩ := mem_map.mp hx
      exact hne d x hx hxv
    · exact h.nodup c

section
variable (he : s.entryNamed d name = some e)
include he

theorem Filed.mem_entries_drop (c : VPtr) (x : RamfsEntry) :
    x ∈ ((s.setEntries d (dropName e.name)).vnode c).entries ↔
      x ∈ (s.vnode c).entries ∧ x.vn ≠ e.vn := by
  rw [entries_setEntries]
  split_ifs with hc
  · rw [hc, entryNamed_name he]
    exact mem_dropName (h.nodup d) he
  · refine ⟨fun hx => ⟨hx, fun hv => hc ?_⟩, And.left⟩
    have hx := h.child c x hx
    rw [hv, h.child d e (mem_of_find?_eq_some he)] at hx
    exact (some.inj hx).symm

theorem Filed.drop : Filed (s.setEntries d (dropName e.name)) (update up e.vn none) := by
  refine ⟨fun c x hx => ?_, fun w c hw => ?_, fun c => ?_⟩
  · rw [h.mem_entries_drop he] at hx
    rw [update_of_ne hx.2]
    exact h.child c x hx.1
  · have hwe : w ≠ e.vn := by
      rintro rfl
      rw [update_self] at hw
      cases hw
    rw [update_of_ne hwe] at hw
    obtain ⟨x, hx, rfl⟩ := h.entry w c hw
    exact ⟨x, (h.mem_entries_drop he c x).mpr ⟨hx, hwe⟩, rfl⟩
  · rw [entries_setEntries]
    split_ifs
    · exact (h.nodup d).sublist ((dropName_sublist e.name _).map _)
    · exact h.nodup c

end

end

section
variable (h : Wf s up base extra)
include h

theorem Wf.filed : Filed s up := ⟨h.child, h.entry, h.nodup⟩

theorem Wf.relink {up' : VPtr → Option VPtr} {extra' : VPtr → ℕ}
    (hs : SameRefs s s') (hfiled : Filed s' up')
    (hcount : ∀ v, (if up' v = none then 0 else 1) + extra' v =
      (if up v = none then 0 else 1) + extra v)
    (hanchored : ∀ v, (s'.vnode v).entries ≠ [] → up' v ≠ none ∨ base v ≠ 0)
    (hlinked : ∀ v, up' v ≠ none → (s'.vnode v).unlinked = false)
    (hremoved : ∀ v, s.Live v → up' v = none → v ≠ s.root → (s'.vnode v).unlinked = true) :
    Wf s' up' base extra' where
  child := hfiled.child
  entry := hfiled.entry
  nodup := hfiled.nodup
  count v := by
    have hc := hcount v
    rw [hs.refCount v, h.count v]
    omega
  data v hv := by
    rw [Live, hs.refCount v] at hv
    rw [hs.hasData v]
    exact h.data v hv
  anchored := hanchored
  linked := hlinked
  removed v hv hup hne := by
    rw [Live, hs.refCount v] at hv
    exact hremoved v hv hup (hs.root ▸ hne)
  root_base := by
    rw [hs.root]
    exact h.root_base
  cwd_base := by
    rw [hs.cwd]
    exact h.cwd_base
  root_dir := by
    rw [hs.root, hs.vtype]
    exact h.root_dir
  cwd_dir := by
    rw [hs.cwd, hs.vtype]
    exact h.cwd_dir
  fresh v hv := by
    rw [Live, hs.refCount v]
    exact h.fresh v (hs.nextVnode ▸ hv)
  free v hv := by
    rw [Live, hs.refCount v, hs.nextVnode]
    exact h.free v (hs.freeList ▸ hv)
  free_nodup := by
    rw [hs.freeList]
    exact h.free_nodup
  hashed k v hv := by
    rw [Live, hs.refCount v]
    exact h.hashed k v (hs.hash ▸ hv)

section
variable (he : s.entryNamed d name = some e)
include he

theorem Wf.up_entryNamed :
    up e.vn = some d := h.child d e (mem_of_find?_eq_some he)

theorem Wf.unlinkEntry
    (hempty : (s.vnode e.vn).entries = []) :
    Wf ((s.setEntries d (dropName e.name)).setVnode e.vn fun n =>
        { n with unlinked := true, vReclaimable := true })
      (update up e.vn none) base (addRef extra e.vn) := by
  have hup := h.up_entryNamed he
  have hentries (c : VPtr) : (((s.setEntries d (dropName e.name)).setVnode e.vn fun n =>
      { n with unlinked := true, vReclaimable := true }).vnode c).entries =
      ((s.setEntries d (dropName e.name)).vnode c).entries := proj_setVnode Vnode.entries rfl c
  refine h.relink ((sameRefs_setEntries s d _).trans (sameRefs_unlink _ e.vn))
    ((h.filed.drop he).congr hentries) (fun w => ?_) (fun w hw => ?_) (fun w hw => ?_)
    fun w hw hupw hr => ?_
  · by_cases hw : w = e.vn
    · rw [hw, update_self, if_pos rfl, hup, if_neg (some_ne_none d), addRef_self]
      omega
    · rw [update_of_ne hw, addRef_of_ne extra hw]
  · rw [hentries w] at hw
    obtain ⟨x, hx⟩ := exists_mem_of_ne_nil _ hw
    obtain ⟨hx, -⟩ := (h.filed.mem_entries_drop he w x).mp hx
    have hne : w ≠ e.vn := by
      rintro rfl
      rw [hempty] at hx
      cases hx
    rw [update_of_ne hne]
    exact h.anchored w (ne_nil_of_mem hx)
  · have hwe : w ≠ e.vn := by
      rintro rfl
      exact hw (update_self ..)
    rw [update_of_ne hwe] at hw
    rw [vnode_setVnode_of_ne _ _ hwe, unlinked_setEntries]
    exact h.linked w hw
  · by_cases hwe : w = e.vn
    · rw [hwe, vnode_setVnode_self]
    · rw [update_of_ne hwe] at hupw
      rw [vnode_setVnode_of_ne _ _ hwe, unlinked_setEntries]
      exact h.removed w hw hupw hr

end

end

/-- The directory loses the entry, and the vnode leaves the cache if that was its only reference. -/
structure Cuts (s : State) (d : VPtr) (e : RamfsEntry) (s' : State) : Prop where
  entries : ∀ c, (s'.vnode c).entries =
    if c = d then dropName e.name (s.vnode d).entries else (s.vnode c).entries
  vParent : ∀ v, (s'.vnode v).vParent = (s.vnode v).vParent
  vName : ∀ v, (s'.vnode v).vName = (s.vnode v).vName
  hash : ∀ k, ∀ w ∈ s'.vnodeHash k, w ∈ s.vnodeHash k ∧ ((s.vnode e.vn).refCount = 1 → w ≠ e.vn)
  addr : s'.addr = s.addr
  root : s'.root = s.root
  cwd : s'.cwd = s.cwd
  fds : s'.fds = s.fds

section
variable (h : Wf s up base extra)
include h

theorem Wf.removeEntry (he : s.entryNamed d name = some e) (hempty : (s.vnode e.vn).entries = []) :
    ∃ s', s.removeEntry d e = some s' ∧ Wf s' (update up e.vn none) base extra ∧ Cuts s d e s' := by
  have hwf := h.unlinkEntry he hempty
  have hs := (sameRefs_setEntries s d (dropName e.name)).trans (sameRefs_unlink _ e.vn)
  have hlive : s.Live e.vn := h.live_of_up (by rw [h.up_entryNamed he]; exact some_ne_none d)
  have hdata : ((s.setEntries d (dropName e.name)).vnode e.vn).hasData = true := by
    rw [(sameRefs_setEntries s d _).hasData]
    exact h.data e.vn hlive
  refine ⟨_, if_pos hdata, hwf.vput, ?_⟩
  refine ⟨fun c => ?_, fun v => ?_, fun v => ?_, fun k w hw => ⟨?_, fun hone => ?_⟩,
    addr_vput _ _, root_vput _ _, cwd_vput _ _, fds_vput _ _⟩
  · rw [hwf.entries_vput c]
    exact (proj_setVnode Vnode.entries rfl c).trans (entries_setEntries s d c _)
  · rw [(vput_keeps _ e.vn v).1, hs.vParent v]
  · rw [(vput_keeps _ e.vn v).2.1, hs.vName v]
  · have hmem := mem_hash_vput hw
    rwa [hs.hash] at hmem
  · rw [vput_last ((hs.refCount e.vn).trans hone)] at hw
    exact (mem_unhash.mp hw).2

theorem Wf.moveEntry {t : VPtr} {dname : Name}
    (he : s.entryNamed d name = some found) (ht : up t ≠ none ∨ base t ≠ 0) :
    Wf (s.moveEntry d found t dname) (update up found.vn (some t)) base extra := by
  have hup := h.up_entryNamed he
  have hfiled := (h.filed.drop he).cons (update_self ..) t (dname.take 255)
  rw [update_idem] at hfiled
  have hs : SameRefs s (s.moveEntry d found t dname) :=
    (sameRefs_setEntries s d _).trans (sameRefs_setEntries _ t _)
  have hunlinked (w : VPtr) :
      ((s.moveEntry d found t dname).vnode w).unlinked = (s.vnode w).unlinked := by
    rw [State.moveEntry, unlinked_setEntries, unlinked_setEntries]
  refine h.relink hs hfiled (fun w => ?_) (fun w hw => ?_) (fun w hw => ?_) fun w hw hupw hr => ?_
  · by_cases hwv : w = found.vn
    · rw [hwv, hup]
      simp
    · rw [update_of_ne hwv]
  · by_cases hwv : w = found.vn
    · rw [hwv, update_self]
      exact .inl (some_ne_none t)
    · rw [update_of_ne hwv]
      obtain ⟨x, hx⟩ := exists_mem_of_ne_nil _ hw
      rcases (mem_entries_cons _ _ w _ x).mp hx with ⟨rfl, -⟩ | hx
      · exact ht
      · exact h.anchored w (ne_nil_of_mem ((h.filed.mem_entries_drop he w x).mp hx).1)
  · rw [hunlinked w]
    by_cases hwv : w = found.vn
    · refine h.linked w ?_
      rw [hwv, hup]
      exact some_ne_none d
    · rw [update_of_ne hwv] at hw
      exact h.linked w hw
  · rw [hunlinked w]
    have hwv : w ≠ found.vn := by
      rintro rfl
      rw [update_self] at hupw
      cases hupw
    rw [update_of_ne hwv] at hupw
    exact h.removed w hw hupw hr

theorem Wf.newEntry {s1 : State} (ha : Allocates s type v s1)
    (hd : up d ≠ none ∨ base d ≠ 0) (name : Name) :
    Wf (s1.setEntries d (⟨name, v⟩ :: ·)) (update up v (some d)) base extra := by
  obtain ⟨hup, hbase, hextra⟩ := h.up_of_dead ha.dead
  have hdv : d ≠ v := by
    rintro rfl
    rcases hd with hd | hd
    · exact hd hup
    · exact hd hbase
  have hnew : s1.vnode v = { Vnode.zero with refCount := 1, vtype := type, hasData := true } := by
    rw [ha.vnode, update_self]
  have hold {w : VPtr} (hw : w ≠ v) : s1.vnode w = s.vnode w := by
    rw [ha.vnode, update_of_ne hw]
  have hs := sameRefs_setEntries s1 d (⟨name, v⟩ :: ·)
  have hentries (c : VPtr) : (s1.vnode c).entries = (s.vnode c).entries := by
    by_cases hc : c = v
    · rw [hc, hnew, h.entries_of_dead ha.dead]
      rfl
    · rw [hold hc]
  have hfiled := (h.filed.congr hentries).cons hup d name
  have hlive {w : VPtr} (hw : w ≠ v) : (s1.setEntries d (⟨name, v⟩ :: ·)).Live w ↔ s.Live w := by
    rw [Live, Live, hs.refCount w, hold hw]
  refine ⟨hfiled.child, hfiled.entry, hfiled.nodup, fun w => ?_, fun w hw => ?_, fun w hw => ?_,
    fun w hw => ?_, fun w hw hupw hr => ?_, ?_, ?_, ?_, ?_, fun w hw => ?_, fun w hw => ?_, ?_,
    fun k w hw => ?_⟩
  · rw [hs.refCount w]
    by_cases hwv : w = v
    · rw [hwv, hnew, update_self, if_neg (some_ne_none d), hbase, hextra]
    · rw [hold hwv, h.count w, update_of_ne hwv]
  · rw [hs.hasData w]
    by_cases hwv : w = v
    · rw [hwv, hnew]
    · rw [hold hwv]
      exact h.data w ((hlive hwv).mp hw)
  · by_cases hwv : w = v
    · rw [hwv, update_self]
      exact .inl (some_ne_none d)
    · rw [update_of_ne hwv]
      obtain ⟨x, hx⟩ := exists_mem_of_ne_nil _ hw
      rcases (mem_entries_cons s1 d w _ x).mp hx with ⟨rfl, -⟩ | hx
      · exact hd
      · exact h.anchored w (ne_nil_of_mem (hentries w ▸ hx))
  · rw [unlinked_setEntries]
    by_cases hwv : w = v
    · rw [hwv, hnew]
      rfl
    · rw [update_of_ne hwv] at hw
      rw [hold hwv]
      exact h.linked w hw
  · have hwv : w ≠ v := by
      rintro rfl
      rw [update_self] at hupw
      cases hupw
    rw [update_of_ne hwv] at hupw
    rw [unlinked_setEntries, hold hwv]
    exact h.removed w ((hlive hwv).mp hw) hupw (ha.root ▸ hs.root ▸ hr)
  · rw [hs.root, ha.root]
    exact h.root_base
  · rw [hs.cwd, ha.cwd]
    exact h.cwd_base
  · have hr : s.root ≠ v := fun hr => h.root_base (hr ▸ hbase)
    rw [hs.vtype, hs.root, ha.root, hold hr]
    exact h.root_dir
  · have hr : s.cwd ≠ v := fun hr => h.cwd_base (hr ▸ hbase)
    rw [hs.vtype, hs.cwd, ha.cwd, hold hr]
    exact h.cwd_dir
  · have hwv : w ≠ v := Nat.ne_of_gt (Nat.lt_of_lt_of_le ha.lt_next hw)
    rw [hlive hwv]
    exact h.fresh w (Nat.le_trans ha.next_le hw)
  · obtain ⟨hmem, hwv⟩ := ha.free w hw
    rw [hlive hwv]
    exact ⟨(h.free w hmem).1, Nat.lt_of_lt_of_le (h.free w hmem).2 ha.next_le⟩
  · exact ha.free_nodup
  · have hlw := h.hashed k w (ha.hash k w hw)
    have hwv : w ≠ v := by
      rintro rfl
      exact ha.dead hlw
    exact (hlive hwv).mpr hlw

end

end State
end Doppio.Vfs
