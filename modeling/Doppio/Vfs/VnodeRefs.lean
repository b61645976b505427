import Doppio.Vfs.Namei

/-! The books of the vnodes: each has at most one entry in a directory, and its count is the number
of its references, from that entry and from outside. -/
namespace Doppio.Vfs

section
variable (refs : VPtr → ℕ)

def addRef (v : VPtr) : VPtr → ℕ := fun w => if w = v then refs w + 1 else refs w

@[simp] theorem addRef_self (v : VPtr) : addRef refs v v = refs v + 1 := by
  simp [addRef]

theorem addRef_of_ne {v w : VPtr} (h : w ≠ v) : addRef refs v w = refs w := by
  simp [addRef, h]

theorem addRef_comm (v w : VPtr) :
    addRef (addRef refs v) w = addRef (addRef refs w) v := by
  funext x
  simp only [addRef]
  split_ifs <;> rfl

end

/-- What counts and cache do not touch. -/
def Vnode.core (n : Vnode) : Vnode := { n with refCount := 0, vParent := none, vName := [] }

namespace State

variable {s s' : State} {v w d : VPtr}

theorem vnode_setVnode (s : State) (v w : VPtr) (f : Vnode → Vnode) :
    (s.setVnode v f).vnode w = if w = v then f (s.vnode v) else s.vnode w :=
  Function.update_apply s.vnode v (f (s.vnode v)) w

@[simp] theorem vnode_setVnode_self (s : State) (v : VPtr) (f : Vnode → Vnode) :
    (s.setVnode v f).vnode v = f (s.vnode v) := by simp [vnode_setVnode]

theorem vnode_setVnode_of_ne (s : State) (f : Vnode → Vnode) (h : w ≠ v) :
    (s.setVnode v f).vnode w = s.vnode w := by simp [vnode_setVnode, h]

variable {f : Vnode → Vnode}

theorem proj_setVnode {α : Type*} (g : Vnode → α)
    (hf : g (f (s.vnode v)) = g (s.vnode v)) (w : VPtr) :
    g ((s.setVnode v f).vnode w) = g (s.vnode w) := by
  rw [vnode_setVnode]
  split_ifs with hw
  · rw [hw, hf]
  · rfl

@[simp] theorem vnode_unhash (s : State) (v : VPtr) : (s.unhash v).vnode = s.vnode := rfl

theorem mem_unhash {k : ℕ} : w ∈ (s.unhash v).vnodeHash k ↔ w ∈ s.vnodeHash k ∧ w ≠ v := by
  simp [unhash]

def Live (s : State) (v : VPtr) : Prop := (s.vnode v).refCount ≠ 0

/-- The entry of a vnode is in the directory `up`; `base` are the outside references that stay,
`extra` the others. -/
structure Wf (s : State) (up : VPtr → Option VPtr) (base extra : VPtr → ℕ) : Prop where
  child : ∀ d, ∀ e ∈ (s.vnode d).entries, up e.vn = some d
  entry : ∀ v d, up v = some d → ∃ e ∈ (s.vnode d).entries, e.vn = v
  nodup : ∀ d, ((s.vnode d).entries.map RamfsEntry.vn).Nodup
  count : ∀ v, (s.vnode v).refCount = (if up v = none then 0 else 1) + base v + extra v
  data : ∀ v, s.Live v → (s.vnode v).hasData = true
  anchored : ∀ v, (s.vnode v).entries ≠ [] → up v ≠ none ∨ base v ≠ 0
  linked : ∀ v, up v ≠ none → (s.vnode v).unlinked = false
  removed : ∀ v, s.Live v → up v = none → v ≠ s.root → (s.vnode v).unlinked = true
  root_base : base s.root ≠ 0
  cwd_base : base s.cwd ≠ 0
  root_dir : (s.vnode s.root).vtype = .dir
  cwd_dir : (s.vnode s.cwd).vtype = .dir
  fresh : ∀ v, s.nextVnode ≤ v → ¬s.Live v
  free : ∀ v ∈ s.vnodeFreeList, ¬s.Live v ∧ v < s.nextVnode
  free_nodup : s.vnodeFreeList.Nodup
  hashed : ∀ k, ∀ v ∈ s.vnodeHash k, s.Live v

variable {up : VPtr → Option VPtr} {base extra extra' : VPtr → ℕ}

section
variable (h : Wf s up base extra)
include h

theorem Wf.live_of_up (hv : up v ≠ none) : s.Live v := by
  rw [Live, h.count v, if_neg hv]
  omega

theorem Wf.live_of_base (hv : base v ≠ 0) : s.Live v := by
  rw [Live, h.count v]
  omega

theorem Wf.live_of_extra (hv : extra v ≠ 0) : s.Live v := by
  rw [Live, h.count v]
  omega

theorem Wf.up_of_dead (hv : ¬s.Live v) :
    up v = none ∧ base v = 0 ∧ extra v = 0 := by
  rw [Live, h.count v] at hv
  split_ifs at hv with hup
  · exact ⟨hup, by omega, by omega⟩
  · omega

theorem Wf.entries_of_dead (hv : ¬s.Live v) :
    (s.vnode v).entries = [] := by
  obtain ⟨hup, hbase, -⟩ := h.up_of_dead hv
  by_contra hne
  rcases h.anchored v hne with hu | hb
  · exact hu hup
  · exact hb hbase

end

structure Agrees (s s' : State) : Prop where
  core : ∀ v, (s'.vnode v).core = (s.vnode v).core
  freeList : s'.vnodeFreeList = s.vnodeFreeList
  nextVnode : s'.nextVnode = s.nextVnode
  addr : s'.addr = s.addr
  root : s'.root = s.root
  cwd : s'.cwd = s.cwd
  fds : s'.fds = s.fds

theorem Agrees.refl (s : State) : Agrees s s := ⟨fun _ => rfl, rfl, rfl, rfl, rfl, rfl, rfl⟩

section
variable (h : Agrees s s')
include h

theorem Agrees.trans {t : State} (h' : Agrees s' t) : Agrees s t :=
  ⟨fun v => (h'.core v).trans (h.core v), h'.freeList.trans h.freeList,
    h'.nextVnode.trans h.nextVnode, h'.addr.trans h.addr, h'.root.trans h.root,
    h'.cwd.trans h.cwd, h'.fds.trans h.fds⟩

theorem Agrees.entries (v : VPtr) :
    (s'.vnode v).entries = (s.vnode v).entries := by
  simpa only [Vnode.core] using congrArg Vnode.entries (h.core v)

theorem Agrees.vtype (v : VPtr) : (s'.vnode v).vtype = (s.vnode v).vtype := by
  simpa only [Vnode.core] using congrArg Vnode.vtype (h.core v)

theorem Agrees.target (v : VPtr) : (s'.vnode v).target = (s.vnode v).target := by
  simpa only [Vnode.core] using congrArg Vnode.target (h.core v)

theorem Agrees.hasData (v : VPtr) :
    (s'.vnode v).hasData = (s.vnode v).hasData := by
  simpa only [Vnode.core] using congrArg Vnode.hasData (h.core v)

theorem Agrees.unlinked (v : VPtr) :
    (s'.vnode v).unlinked = (s.vnode v).unlinked := by
  simpa only [Vnode.core] using congrArg Vnode.unlinked (h.core v)

end

theorem agrees_setVnode (hf : (f (s.vnode v)).core = (s.vnode v).core) :
    Agrees s (s.setVnode v f) :=
  ⟨proj_setVnode Vnode.core hf, rfl, rfl, rfl, rfl, rfl, rfl⟩

theorem Wf.agrees (h : Wf s up base extra) (ha : Agrees s s')
    (hcount : ∀ v, (s'.vnode v).refCount = (if up v = none then 0 else 1) + base v + extra' v)
    (hlive : ∀ v, s'.Live v ↔ s.Live v) (hhash : ∀ k, ∀ v ∈ s'.vnodeHash k, s.Live v) :
    Wf s' up base extra' where
  child d e he := h.child d e (ha.entries d ▸ he)
  entry v d hv := by
    rw [ha.entries d]
    exact h.entry v d hv
  nodup d := by
    rw [ha.entries d]
    exact h.nodup d
  count := hcount
  data v hv := by
    rw [ha.hasData v]
    exact h.data v ((hlive v).mp hv)
  anchored v hv := h.anchored v (ha.entries v ▸ hv)
  linked v hv := by
    rw [ha.unlinked v]
    exact h.linked v hv
  removed v hv hup hne := by
    rw [ha.unlinked v]
    exact h.removed v ((hlive v).mp hv) hup (ha.root ▸ hne)
  root_base := by
    rw [ha.root]
    exact h.root_base
  cwd_base := by
    rw [ha.cwd]
    exact h.cwd_base
  root_dir := by
    rw [ha.root, ha.vtype]
    exact h.root_dir
  cwd_dir := by
    rw [ha.cwd, ha.vtype]
    exact h.cwd_dir
  fresh v hv hlv := h.fresh v (ha.nextVnode ▸ hv) ((hlive v).mp hlv)
  free v hv := by
    rw [ha.freeList] at hv
    rw [ha.nextVnode]
    exact ⟨fun hlv => (h.free v hv).1 ((hlive v).mp hlv), (h.free v hv).2⟩
  free_nodup := by
    rw [ha.freeList]
    exact h.free_nodup
  hashed k v hv := (hlive v).mpr (hhash k v hv)

theorem Wf.retain (h : Wf s up base extra) (hv : s.Live v) :
    Wf (s.setVnode v fun n => { n with refCount := n.refCount + 1 }) up base (addRef extra v) := by
  refine h.agrees (agrees_setVnode rfl) (fun w => ?_) (fun w => ?_) h.hashed
  · rw [vnode_setVnode]
    split_ifs with hw hup hup
    · rw [hw, addRef_self]
      have hc := h.count v
      rw [← hw, if_pos hup, hw] at hc
      simp only [hc]
      omega
    · rw [hw, addRef_self]
      have hc := h.count v
      rw [← hw, if_neg hup, hw] at hc
      simp only [hc]
      omega
    · rw [addRef_of_ne extra hw, h.count w, if_pos hup]
    · rw [addRef_of_ne extra hw, h.count w, if_neg hup]
  · rw [Live, vnode_setVnode]
    split_ifs with hw
    · rw [hw]
      exact iff_of_true (Nat.succ_ne_zero _) hv
    · rfl

theorem vref_eq (hv : s.Live v) :
    s.vref v = s.setVnode v fun n => { n with refCount := n.refCount + 1 } := by
  rw [vref, setVnode, setVnode, if_neg hv]

theorem Wf.vref (h : Wf s up base extra) (hv : s.Live v) :
    Wf (s.vref v) up base (addRef extra v) := by
  rw [vref_eq hv]
  exact h.retain hv

theorem agrees_vref (s : State) (v : VPtr) : Agrees s (s.vref v) := agrees_setVnode rfl

theorem Wf.count_addRef (h : Wf s up base (addRef extra v)) :
    (s.vnode v).refCount = (if up v = none then 0 else 1) + base v + extra v + 1 := by
  rw [h.count v, addRef_self]
  omega

theorem vput_eq (hv : 2 ≤ (s.vnode v).refCount) :
    s.vput v = s.setVnode v fun n => { n with refCount := n.refCount - 1 } := by
  rw [vput, if_neg (by omega), setVnode, setVnode, if_neg (by omega)]

theorem agrees_vput (hv : 2 ≤ (s.vnode v).refCount) : Agrees s (s.vput v) := by
  rw [vput_eq hv]
  exact agrees_setVnode rfl

theorem Wf.release (h : Wf s up base (addRef extra v)) (hv : 2 ≤ (s.vnode v).refCount) :
    Wf (s.vput v) up base extra := by
  have hc := h.count_addRef
  refine h.agrees (agrees_vput hv) (fun w => ?_) (fun w => ?_) fun k w hw => ?_
  · rw [vput_eq hv, vnode_setVnode]
    split_ifs with hw hup hup
    · rw [← hw, if_pos hup, hw] at hc
      simp only [hw]
      omega
    · rw [← hw, if_neg hup, hw] at hc
      simp only [hw]
      omega
    · rw [h.count w, addRef_of_ne extra hw, if_pos hup]
    · rw [h.count w, addRef_of_ne extra hw, if_neg hup]
  · rw [vput_eq hv, Live, Live, vnode_setVnode]
    split_ifs with hw
    · rw [hw]
      exact iff_of_true (by simp only [ne_eq]; omega) (by omega)
    · rfl
  · rw [vput_eq hv] at hw
    exact h.hashed k w hw

/-- A vnode after its last `vput`. -/
def lastVput (n : Vnode) : Vnode :=
  if n.devOps then { n with refCount := 0, vReclaimable := true }
  else
    { n with
      refCount := 0, vReclaimable := true, hasData := false, unlinked := false, entries := [],
      target := [] }

theorem vput_last (hv : (s.vnode v).refCount = 1) :
    s.vput v =
      { (s.unhash v).setVnode v lastVput with vnodeFreeList := s.vnodeFreeList ++ [v] } := by
  rw [vput, if_pos hv]
  by_cases hd : (s.vnode v).devOps
  · simp [setVnode, unhash, hd, lastVput]
  · simp [setVnode, unhash, hd, lastVput, ramfsInactive]

@[simp] theorem lastVput_refCount (n : Vnode) : (lastVput n).refCount = 0 := by
  unfold lastVput
  split <;> rfl

theorem lastVput_entries {n : Vnode} (hn : n.entries = []) : (lastVput n).entries = [] := by
  unfold lastVput
  split
  · exact hn
  · rfl

section
variable (s : State)

variable (v : VPtr)

theorem vput_cases :
    (s.vput v = s.setVnode v fun n =>
      { n with refCount := if n.refCount = 0 then 2 ^ 32 - 1 else n.refCount - 1 }) ∨
    ((s.vnode v).refCount = 1 ∧ s.vput v =
      { (s.unhash v).setVnode v lastVput with vnodeFreeList := s.vnodeFreeList ++ [v] }) := by
  by_cases hv : (s.vnode v).refCount = 1
  · exact .inr ⟨hv, vput_last hv⟩
  · rw [vput, if_neg hv]
    exact .inl rfl

@[simp] theorem root_vput : (s.vput v).root = s.root := by
  rcases vput_cases s v with h | ⟨-, h⟩ <;> rw [h] <;> rfl

@[simp] theorem cwd_vput : (s.vput v).cwd = s.cwd := by
  rcases vput_cases s v with h | ⟨-, h⟩ <;> rw [h] <;> rfl

@[simp] theorem addr_vput : (s.vput v).addr = s.addr := by
  rcases vput_cases s v with h | ⟨-, h⟩ <;> rw [h] <;> rfl

@[simp] theorem fds_vput : (s.vput v).fds = s.fds := by
  rcases vput_cases s v with h | ⟨-, h⟩ <;> rw [h] <;> rfl

end

theorem mem_hash_vput {k : ℕ} (h : w ∈ (s.vput v).vnodeHash k) : w ∈ s.vnodeHash k := by
  rcases vput_cases s v with he | ⟨-, he⟩ <;> rw [he] at h
  · exact h
  · exact (mem_unhash.mp h).1

@[simp] theorem vParent_lastVput (n : Vnode) : (lastVput n).vParent = n.vParent := by
  unfold lastVput
  split <;> rfl

@[simp] theorem vName_lastVput (n : Vnode) : (lastVput n).vName = n.vName := by
  unfold lastVput
  split <;> rfl

@[simp] theorem vtype_lastVput (n : Vnode) : (lastVput n).vtype = n.vtype := by
  unfold lastVput
  split <;> rfl

theorem vput_keeps (s : State) (v w : VPtr) :
    ((s.vput v).vnode w).vParent = (s.vnode w).vParent ∧
      ((s.vput v).vnode w).vName = (s.vnode w).vName ∧
      ((s.vput v).vnode w).vtype = (s.vnode w).vtype := by
  rcases vput_cases s v with h | ⟨-, h⟩ <;> rw [h]
  · exact ⟨proj_setVnode Vnode.vParent rfl w, proj_setVnode Vnode.vName rfl w,
      proj_setVnode Vnode.vtype rfl w⟩
  · exact ⟨proj_setVnode Vnode.vParent (vParent_lastVput _) w,
      proj_setVnode Vnode.vName (vName_lastVput _) w,
      proj_setVnode Vnode.vtype (vtype_lastVput _) w⟩

section
variable (h : Wf s up base (addRef extra v))
include h

theorem Wf.entries_last (hv : (s.vnode v).refCount = 1) :
    (up v = none ∧ base v = 0 ∧ extra v = 0) ∧ (s.vnode v).entries = [] := by
  have hc := h.count_addRef
  have hup : up v = none := by
    by_contra hup
    rw [if_neg hup] at hc
    omega
  have hbase : base v = 0 := by omega
  refine ⟨⟨hup, hbase, by omega⟩, ?_⟩
  by_contra hne
  rcases h.anchored v hne with hu | hb
  · exact hu hup
  · exact hb hbase

theorem Wf.entries_vput (d : VPtr) :
    ((s.vput v).vnode d).entries = (s.vnode d).entries := by
  rcases vput_cases s v with he | ⟨hv, he⟩ <;> rw [he]
  · exact proj_setVnode Vnode.entries rfl d
  · have hent := (h.entries_last hv).2
    refine proj_setVnode Vnode.entries ?_ d
    exact (lastVput_entries hent).trans hent.symm

theorem Wf.last (hv : (s.vnode v).refCount = 1) :
    Wf (s.vput v) up base extra := by
  obtain ⟨⟨hup, hbase, hextra⟩, -⟩ := h.entries_last hv
  have hentries := h.entries_vput
  have hne {w : VPtr} (hw : w ≠ v) : (s.vput v).vnode w = s.vnode w := by
    rw [vput_last hv]
    exact vnode_setVnode_of_ne (s.unhash v) lastVput hw
  have hdead : ¬(s.vput v).Live v := by
    rw [vput_last hv, Live]
    simp
  have hlive {w : VPtr} (hw : (s.vput v).Live w) : s.Live w ∧ w ≠ v := by
    have hwv : w ≠ v := by
      rintro rfl
      exact hdead hw
    rw [Live, hne hwv] at hw
    exact ⟨hw, hwv⟩
  have hnext : (s.vput v).nextVnode = s.nextVnode := by rw [vput_last hv]; rfl
  have hfree : (s.vput v).vnodeFreeList = s.vnodeFreeList ++ [v] := by rw [vput_last hv]
  have hvlive : s.Live v := by
    rw [Live, hv]
    exact Nat.one_ne_zero
  refine ⟨fun d e he => h.child d e (hentries d ▸ he), fun w d hw => ?_, fun d => ?_, fun w => ?_,
    fun w hw => ?_, fun w hw => h.anchored w (hentries w ▸ hw), fun w hw => ?_,
    fun w hw hupw hr => ?_, ?_, ?_, ?_, ?_, fun w hw hlw => ?_, fun w hw => ?_, ?_, fun k w hw => ?_⟩
  · rw [hentries d]
    exact h.entry w d hw
  · rw [hentries d]
    exact h.nodup d
  · by_cases hw : w = v
    · rw [hw, if_pos hup, hbase, hextra]
      exact not_not.mp hdead
    · rw [hne hw, h.count w, addRef_of_ne extra hw]
  · rw [hne (hlive hw).2]
    exact h.data w (hlive hw).1
  · have hwv : w ≠ v := by
      rintro rfl
      exact hw hup
    rw [hne hwv]
    exact h.linked w hw
  · rw [hne (hlive hw).2]
    exact h.removed w (hlive hw).1 hupw (root_vput s v ▸ hr)
  · rw [root_vput]
    exact h.root_base
  · rw [cwd_vput]
    exact h.cwd_base
  · rw [root_vput, (vput_keeps s v s.root).2.2]
    exact h.root_dir
  · rw [cwd_vput, (vput_keeps s v s.cwd).2.2]
    exact h.cwd_dir
  · exact h.fresh w (hnext ▸ hw) (hlive hlw).1
  · rw [hfree, List.mem_append, List.mem_singleton] at hw
    rw [hnext]
    rcases hw with hw | rfl
    · exact ⟨fun hlw => (h.free w hw).1 (hlive hlw).1, (h.free w hw).2⟩
    · exact ⟨hdead, Nat.lt_of_not_le fun hle => h.fresh w hle hvlive⟩
  · rw [hfree]
    refine List.nodup_append.mpr ⟨h.free_nodup, List.pairwise_singleton _ v, fun w hw u hu => ?_⟩
    rw [List.mem_singleton.mp hu]
    rintro rfl
    exact (h.free w hw).1 hvlive
  · rw [vput_last hv] at hw
    obtain ⟨hmem, hwv⟩ := mem_unhash.mp hw
    rw [Live, hne hwv]
    exact h.hashed k w hmem

theorem Wf.vput : Wf (s.vput v) up base extra := by
  by_cases hv : (s.vnode v).refCount = 1
  · exact h.last hv
  · have hc := h.count_addRef
    exact h.release (by omega)

end

end State
end Doppio.Vfs
