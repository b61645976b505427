import Doppio.Sys.FileRefs
import Doppio.Sys.ScmDelivery

/-! Who holds a reference to a file: descriptor tables, calls in progress and rings of sockets; and
what the operations do to the counts. -/
namespace Doppio
open Function
open Multiset
namespace FileRefs
open ScmRights (FPtr maxFiles sizeofCmsghdr maxToPass pushFiles popFiles)

def ringFiles : Option Sock → Multiset FPtr
  | none => 0
  | some k => k.passed.contents

namespace State
variable {P : Type} {s s' : State P} {L T : Multiset FPtr} {f g : FPtr} {p : P} {fd : ℤ}
  {i : Fin maxFiles} {v w : VPtr} {k : Sock}

def rings (s : State P) : Multiset FPtr :=
  ∑ v ∈ Finset.range s.nextVnode, ringFiles (s.sock v)

/-- The slots and the holders in flight, by file. -/
def holders [Fintype P] (s : State P) : Multiset FPtr :=
  RefCount.table s.fds + (s.held + s.rings)

/-- The counts of files and vnodes agree with a multiset of holders. -/
structure Counted (s : State P) (T : Multiset FPtr) : Prop where
  refcnt : ∀ f, (s.file f).refcnt = BitVec.ofNat 32 (T.count f)
  lt : ∀ f ∈ T, f < s.nextFile
  kept : ∀ f ∈ T, (s.file f).vn ≠ none ∧ s.vputs f = 0
  dropped : ∀ f, f < s.nextFile → f ∉ T → (s.file f).vn = none ∧ s.vputs f = 1
  fresh : ∀ f, s.nextFile ≤ f → s.vputs f = 0

@[simp] theorem setFile_file (s : State P) (x : File) (g : FPtr) :
    (s.setFile f x).file g = if g = f then x else s.file g := update_apply _ _ _ _

theorem Counted.nextFile_notMem (h : Counted s T) : s.nextFile ∉ T :=
  fun hmem => lt_irrefl _ (h.lt _ hmem)

theorem Counted.fileRef (h : Counted s T) (hf : f ∈ T) : Counted (s.fileRef f) (f ::ₘ T) where
  refcnt g := by
    have hg := h.refcnt g
    rw [State.fileRef, setFile_file, count_cons]
    split_ifs with heq
    · subst heq
      rw [hg, BitVec.ofNat_add]
      rfl
    · exact hg
  lt g hg := by
    obtain rfl | hg := mem_cons.mp hg
    · exact h.lt _ hf
    · exact h.lt _ hg
  kept g hg := by
    have hmem : g ∈ T := by
      obtain rfl | hg := mem_cons.mp hg
      · exact hf
      · exact hg
    rw [State.fileRef, setFile_file]
    split_ifs with heq
    · subst heq
      exact h.kept _ hmem
    · exact h.kept _ hmem
  dropped g hlt hg := by
    rw [mem_cons, not_or] at hg
    rw [State.fileRef, setFile_file, if_neg hg.1]
    exact h.dropped g hlt hg.2
  fresh := h.fresh

theorem fileClose_of_ne (h : (s.file f).refcnt ≠ 1) :
    s.fileClose f = s.setFile f { s.file f with refcnt := (s.file f).refcnt - 1 } := if_neg h

theorem fileClose_of_eq (h : (s.file f).refcnt = 1) (hv : (s.file f).vn = some v) :
    s.fileClose f = { (s.setFile f { s.file f with refcnt := 0, vn := none }).vput v with
        vputs := update s.vputs f (s.vputs f + 1) } := by
  rw [fileClose, if_pos h, hv]

theorem Counted.fileClose (h : Counted s (f ::ₘ T)) (hb : T.count f + 1 < 2 ^ 32) :
    Counted (s.fileClose f) T := by
  have hcount : (s.file f).refcnt = BitVec.ofNat 32 (T.count f + 1) := by
    rw [h.refcnt f, count_cons_self]
  have hother : ∀ g, g ≠ f → (s.file g).refcnt = BitVec.ofNat 32 (T.count g) := by
    intro g hg
    rw [h.refcnt g, count_cons_of_ne hg]
  have hlt : ∀ g ∈ T, g < s.nextFile := fun g hg => h.lt g (mem_cons_of_mem hg)
  have hkept : ∀ g ∈ T, (s.file g).vn ≠ none ∧ s.vputs g = 0 :=
    fun g hg => h.kept g (mem_cons_of_mem hg)
  obtain ⟨hvn, hputs⟩ := h.kept f (mem_cons_self f T)
  by_cases hmem : f ∈ T
  · have hpos := count_pos.mpr hmem
    have hne : (s.file f).refcnt ≠ 1 := by
      intro hone
      have htoNat := congrArg BitVec.toNat (hcount.symm.trans hone)
      rw [BitVec.toNat_ofNat, Nat.mod_eq_of_lt hb] at htoNat
      change T.count f + 1 = 1 at htoNat
      omega
    rw [fileClose_of_ne hne]
    refine ⟨fun g => ?_, hlt, fun g hg => ?_, fun g hg hnot => ?_, h.fresh⟩
    · rw [setFile_file]
      split_ifs with heq
      · subst heq
        rw [hcount, BitVec.ofNat_add]
        exact BitVec.add_sub_cancel _ _
      · exact hother g heq
    · rw [setFile_file]
      split_ifs with heq
      · subst heq
        exact ⟨hvn, hputs⟩
      · exact hkept g hg
    · have hgf : g ≠ f := fun heq => hnot (heq ▸ hmem)
      rw [setFile_file, if_neg hgf]
      exact h.dropped g hg (by simp [hgf, hnot])
  · have hzero := count_eq_zero.mpr hmem
    have hone : (s.file f).refcnt = 1 := by
      rw [hcount, hzero]
      rfl
    obtain ⟨v, hv⟩ := Option.ne_none_iff_exists'.mp hvn
    rw [fileClose_of_eq hone hv]
    have hffresh : f < s.nextFile := h.lt f (mem_cons_self f T)
    refine ⟨fun g => ?_, hlt, fun g hg => ?_, fun g hg hnot => ?_, fun g hg => ?_⟩
    · change ((s.setFile f _).file g).refcnt = _
      rw [setFile_file]
      split_ifs with heq
      · subst heq
        rw [hzero]
        rfl
      · exact hother g heq
    · have hgf : g ≠ f := fun heq => hmem (heq ▸ hg)
      change ((s.setFile f _).file g).vn ≠ none ∧ update s.vputs f _ g = 0
      rw [setFile_file, if_neg hgf, update_of_ne hgf]
      exact hkept g hg
    · change ((s.setFile f _).file g).vn = none ∧ update s.vputs f _ g = 1
      by_cases hgf : g = f
      · subst hgf
        rw [setFile_file, if_pos rfl, update_self, hputs]
        exact ⟨rfl, rfl⟩
      · rw [setFile_file, if_neg hgf, update_of_ne hgf]
        exact h.dropped g hg (by simp [hgf, hnot])
    · have hgf : g ≠ f := fun heq => absurd hg (not_le.mpr (heq ▸ hffresh))
      change update s.vputs f _ g = 0
      rw [update_of_ne hgf]
      exact h.fresh g hg

theorem Counted.fileAlloc (h : Counted s T) (v : VPtr) (flags : BitVec 32) :
    Counted (s.fileAlloc v flags) (s.nextFile ::ₘ T) := by
  have hnot := h.nextFile_notMem
  refine ⟨fun g => ?_, fun g hg => ?_, fun g hg => ?_, fun g hg hnew => ?_, fun g hg => ?_⟩
  · change ((s.setFile s.nextFile _).file g).refcnt = _
    rw [setFile_file, count_cons]
    split_ifs with heq
    · rw [heq, count_eq_zero.mpr hnot]
      rfl
    · exact h.refcnt g
  · obtain rfl | hg := mem_cons.mp hg
    · exact Nat.lt_succ_self _
    · exact Nat.lt_succ_of_lt (h.lt g hg)
  · change ((s.setFile s.nextFile _).file g).vn ≠ none ∧ s.vputs g = 0
    rw [setFile_file]
    obtain rfl | hg := mem_cons.mp hg
    · exact ⟨by simp, h.fresh _ le_rfl⟩
    · have hne : g ≠ s.nextFile := fun heq => hnot (heq ▸ hg)
      rw [if_neg hne]
      exact h.kept g hg
  · change ((s.setFile s.nextFile _).file g).vn = none ∧ s.vputs g = 1
    rw [mem_cons, not_or] at hnew
    rw [setFile_file, if_neg hnew.1]
    have hlt : g < s.nextFile + 1 := hg
    exact h.dropped g (Nat.lt_of_le_of_ne (Nat.lt_succ_iff.mp hlt) hnew.1) hnew.2
  · have hle : s.nextFile + 1 ≤ g := hg
    exact h.fresh g ((Nat.le_succ _).trans hle)

section
variable (s : State P)

theorem fileClose_frame (f : FPtr) : ∃ file inactive vputs,
    s.fileClose f = { s with file := file, inactive := inactive, vputs := vputs } := by
  rw [fileClose]
  split_ifs
  · cases (s.file f).vn with
    | none => exact ⟨_, _, _, rfl⟩
    | some v => exact ⟨_, _, _, rfl⟩
  · exact ⟨_, _, _, rfl⟩

@[simp] theorem fileClose_fds (f : FPtr) : (s.fileClose f).fds = s.fds := by
  obtain ⟨file, inactive, vputs, heq⟩ := s.fileClose_frame f
  rw [heq]

@[simp] theorem fileClose_live (f : FPtr) : (s.fileClose f).live = s.live := by
  obtain ⟨file, inactive, vputs, heq⟩ := s.fileClose_frame f
  rw [heq]

/-- The ends of a pair know each other, and the rings are in order. -/
def Paired : Prop :=
  ∀ v k, s.sock v = some k → v < s.nextVnode ∧ k.passed.Valid ∧
    ∀ w, k.peer = some w → w ≠ v ∧ ∃ k', s.sock w = some k' ∧ k'.peer = some v

end

variable [Fintype P]

@[simp] theorem fileClose_holders (s : State P) (f : FPtr) :
    (s.fileClose f).holders = s.holders := by
  obtain ⟨file, inactive, vputs, heq⟩ := s.fileClose_frame f
  rw [heq]
  rfl

/-- In the middle of a call whose local variables hold `L`. -/
structure Sound (s : State P) (L : Multiset FPtr) : Prop where
  counted : Counted s (L + s.holders)
  dead : ∀ p, s.live p = false → ∀ i, s.fds (p, i) = none
  paired : Paired s

/-- Every count has room for `n` more references. -/
def Room (s : State P) (L : Multiset FPtr) (n : ℕ) : Prop :=
  ∀ f, (L + s.holders).count f + n < 2 ^ 32

theorem Sound.fileRef (h : Sound s L) (hf : f ∈ L + s.holders) :
    Sound (s.fileRef f) (f ::ₘ L) := by
  have hc := h.counted.fileRef hf
  rw [← cons_add] at hc
  exact ⟨hc, h.dead, h.paired⟩

theorem Sound.fileClose (h : Sound s (f ::ₘ L)) (hb : (L + s.holders).count f + 1 < 2 ^ 32) :
    Sound (s.fileClose f) L := by
  have hc := h.counted
  rw [cons_add] at hc
  have hclose := hc.fileClose hb
  obtain ⟨file, inactive, vputs, heq⟩ := s.fileClose_frame f
  rw [heq] at hclose ⊢
  exact ⟨hclose, h.dead, h.paired⟩

theorem Sound.fileAlloc (h : Sound s L) (v : VPtr) (flags : BitVec 32) :
    Sound (s.fileAlloc v flags) (s.nextFile ::ₘ L) := by
  have hc := h.counted.fileAlloc v flags
  rw [← cons_add] at hc
  exact ⟨hc, h.dead, h.paired⟩

variable {n : ℕ}

theorem Room.mono {L' : Multiset FPtr} (h : Room s L n)
    (hle : L' + s'.holders ≤ L + s.holders) : Room s' L' n := fun f => by
  have hcount := count_le_of_le f hle
  have hroom := h f
  omega

theorem Room.fileClose (h : Room s (f ::ₘ L) n) : Room (s.fileClose f) L n :=
  h.mono (by rw [fileClose_holders, cons_add]; exact le_cons_self _ _)

theorem Room.fileRef (h : Room s L (n + 1)) : Room (s.fileRef f) (f ::ₘ L) n := fun g => by
  have hroom := h g
  change ((f ::ₘ L) + s.holders).count g + n < 2 ^ 32
  rw [cons_add, count_cons]
  split_ifs <;> omega

theorem Sound.fileClose_of_room (h : Sound s (f ::ₘ L)) (hr : Room s (f ::ₘ L) n) :
    Sound (s.fileClose f) L := by
  have hcount := hr f
  rw [cons_add, count_cons_self] at hcount
  exact h.fileClose (by omega)

variable {fs : List FPtr}

theorem Room.fileCloses (h : Room s (fs + L) n) :
    Room (s.fileCloses fs) L n := by
  induction fs generalizing s with
  | nil => simpa [State.fileCloses] using h
  | cons f fs ih =>
    rw [← cons_coe, cons_add] at h
    exact ih h.fileClose

theorem Sound.fileCloses (h : Sound s (fs + L)) (hr : Room s (fs + L) n) :
    Sound (s.fileCloses fs) L := by
  induction fs generalizing s with
  | nil => simpa [State.fileCloses] using h
  | cons f fs ih =>
    rw [← cons_coe, cons_add] at h hr
    exact ih (h.fileClose_of_room hr) hr.fileClose

section Slots
variable [DecidableEq P]

theorem holders_setFd_some (h : s.fds (p, i) = none) (f : FPtr) :
    (s.setFd p i (some f)).holders = f ::ₘ s.holders := by
  change RefCount.table (update s.fds (p, i) (some f)) + _ = _
  rw [RefCount.table_insert h, cons_add]
  rfl

theorem holders_setFd_none (h : s.fds (p, i) = some f) :
    f ::ₘ (s.setFd p i none).holders = s.holders := by
  change f ::ₘ (RefCount.table (update s.fds (p, i) none) + (s.held + s.rings)) = _
  rw [← cons_add, RefCount.table_erase h]
  rfl

theorem mem_holders_of_fds (h : s.fds (p, i) = some f) : f ∈ s.holders := by
  rw [← holders_setFd_none h]
  exact mem_cons_self _ _

theorem Sound.setFd_some (h : Sound s (f ::ₘ L)) (hi : s.fds (p, i) = none)
    (hp : s.live p = true) : Sound (s.setFd p i (some f)) L where
  counted := by
    have hc := h.counted
    rw [cons_add, ← add_cons, ← holders_setFd_some hi] at hc
    exact ⟨hc.1, hc.2, hc.3, hc.4, hc.5⟩
  dead q hq j := by
    have hq : s.live q = false := hq
    have hne : (q, j) ≠ (p, i) := by
      rintro ⟨⟩
      rw [hp] at hq
      exact Bool.noConfusion hq
    exact (update_of_ne hne _ _).trans (h.dead q hq j)
  paired := h.paired

omit [Fintype P] in
theorem procAllocFd_cases (s : State P) (p : P) (f : FPtr) : s.procAllocFd p f = (s, none) ∨
    ∃ i, s.fds (p, i) = none ∧ s.procAllocFd p f = ((s.fileRef f).setFd p i (some f), some i) := by
  rw [procAllocFd]
  cases hfind : (List.finRange maxFiles).find? fun i => s.fds (p, i) = none with
  | none => exact Or.inl rfl
  | some i => exact Or.inr ⟨i, by simpa using List.find?_some hfind, rfl⟩

theorem fdget_cases (s : State P) (p : P) (fd : ℤ) : s.fdget p fd = (s, none) ∨
    ∃ f ∈ s.holders, s.fdget p fd = (s.fileRef f, some f) := by
  rw [fdget]
  cases hslot : (ScmRights.State.slot fd).bind fun i => s.fds (p, i) with
  | none => exact Or.inl rfl
  | some f =>
    dsimp only
    obtain ⟨i, -, hi⟩ := Option.bind_eq_some_iff.mp hslot
    split_ifs
    · exact Or.inl rfl
    · exact Or.inr ⟨f, mem_holders_of_fds hi, rfl⟩

omit [Fintype P] in
theorem fileClose_setFd (s : State P) (f : FPtr) (p : P) (i : Fin maxFiles) (x : Option FPtr) :
    (s.fileClose f).setFd p i x = (s.setFd p i x).fileClose f := by
  have hfile : (s.setFd p i x).file = s.file := rfl
  rw [State.fileClose, State.fileClose, hfile]
  split_ifs
  · cases (s.file f).vn <;> rfl
  · rfl

omit [DecidableEq P] in
theorem Sound.closePair {f1 f2 : FPtr} (h : Sound s (f1 ::ₘ f2 ::ₘ L)) (hne : f1 ≠ f2)
    (h1 : f1 ∉ L + s.holders) (h2 : f2 ∉ L + s.holders) :
    Sound ((s.fileClose f1).fileClose f2) L := by
  have hfirst : Sound (s.fileClose f1) (f2 ::ₘ L) := by
    apply h.fileClose
    rw [cons_add, count_cons_of_ne hne, count_eq_zero.mpr h1]
    decide
  apply hfirst.fileClose
  rw [fileClose_holders, count_eq_zero.mpr h2]
  decide

section
variable (h : Sound s L)
include h

theorem Sound.setFd_none (hi : s.fds (p, i) = some f) :
    Sound (s.setFd p i none) (f ::ₘ L) where
  counted := by
    have hc := h.counted
    rw [← holders_setFd_none hi, add_cons, ← cons_add] at hc
    exact ⟨hc.1, hc.2, hc.3, hc.4, hc.5⟩
  dead q hq j := by
    change update s.fds (p, i) none (q, j) = none
    rw [update_apply]
    split_ifs with heq
    · rfl
    · exact h.dead q hq j
  paired := h.paired

theorem Sound.procAllocFd (hf : f ∈ L + s.holders) (hp : s.live p = true) :
    Sound (s.procAllocFd p f).1 L := by
  obtain heq | ⟨i, hi, heq⟩ := s.procAllocFd_cases p f
  · rw [heq]
    exact h
  · rw [heq]
    exact (h.fileRef hf).setFd_some hi hp

theorem Sound.close (hr : Room s L n) : Sound (s.close p fd) L := by
  rw [State.close]
  cases ScmRights.State.slot fd with
  | none => exact h
  | some i =>
    dsimp only
    cases hi : s.fds (p, i) with
    | none => exact h
    | some f =>
      have htotal : (f ::ₘ L) + (s.setFd p i none).holders = L + s.holders := by
        rw [← holders_setFd_none hi, cons_add, add_cons]
      exact (h.setFd_none hi).fileClose_of_room (hr.mono htotal.le)

theorem Sound.dupfd (hp : s.live p = true) (hr : Room s L 2) (arg : BitVec 64) :
    Sound (s.dupfd p fd arg) L := by
  rw [State.dupfd]
  obtain heq | ⟨f, hf, heq⟩ := s.fdget_cases p fd
  · rw [heq]
    exact h
  · rw [heq]
    have hget := h.fileRef (mem_add.mpr (Or.inr hf))
    have hroom : Room (s.fileRef f) (f ::ₘ L) 1 := hr.fileRef
    cases ScmRights.State.slot (arg.setWidth 32).toInt with
    | none => exact hget.fileClose_of_room hroom
    | some minfd =>
      dsimp only
      cases hfind : (List.finRange maxFiles).find? fun i =>
          minfd ≤ i ∧ (s.fileRef f).fds (p, i) = none with
      | none => exact hget.fileClose_of_room hroom
      | some i =>
        have hi : (s.fileRef f).fds (p, i) = none := by
          have hfound := List.find?_some hfind
          simp only [decide_eq_true_eq] at hfound
          exact hfound.2
        -- the slot gets a reference of its own
        have hmem : f ∈ (f ::ₘ L) + (s.fileRef f).holders := by simp
        have hslot := (hget.fileRef hmem).setFd_some hi hp
        have htotal : (f ::ₘ L) + ((s.fileRef f).fileRef f |>.setFd p i (some f)).holders =
            (f ::ₘ f ::ₘ L) + ((s.fileRef f).fileRef f).holders := by
          rw [holders_setFd_some (s := (s.fileRef f).fileRef f) hi, add_cons, ← cons_add]
        exact hslot.fileClose_of_room (hroom.fileRef.mono htotal.le)

theorem Sound.copyFd {c : P} (hc : s.live c = true) (hi : s.fds (c, i) = none) :
    Sound (copyFd p c s i) L := by
  rw [State.copyFd]
  cases hf : s.fds (p, i) with
  | none =>
    have hsame : s.setFd c i none = s := by
      rw [setFd, ← hi, update_eq_self]
    rw [hsame]
    exact h
  | some f =>
    exact (h.fileRef (mem_add.mpr (Or.inr (mem_holders_of_fds hf)))).setFd_some hi hc

theorem Sound.freeFd (hr : Room s L n) :
    Sound (freeFd p s i) L ∧ Room (State.freeFd p s i) L n ∧
      (State.freeFd p s i).fds = update s.fds (p, i) none := by
  rw [State.freeFd]
  cases hi : s.fds (p, i) with
  | none =>
    refine ⟨h, hr, ?_⟩
    funext x
    rw [update_apply]
    split_ifs with heq
    · rw [heq, hi]
    · rfl
  | some f =>
    have htotal : (f ::ₘ L) + (s.setFd p i none).holders = L + s.holders := by
      rw [← holders_setFd_none hi, cons_add, add_cons]
    have hroom : Room (s.setFd p i none) (f ::ₘ L) n := hr.mono htotal.le
    dsimp only
    rw [fileClose_setFd]
    exact ⟨(h.setFd_none hi).fileClose_of_room hroom, hroom.fileClose, fileClose_fds _ _⟩

theorem Sound.freeFds (hr : Room s L n) (is : List (Fin maxFiles)) :
    Sound (is.foldl (State.freeFd p) s) L ∧
      ∀ j, (j ∈ is ∨ s.fds (p, j) = none) → (is.foldl (State.freeFd p) s).fds (p, j) = none := by
  induction is generalizing s with
  | nil => exact ⟨h, fun j hj => hj.resolve_left List.not_mem_nil⟩
  | cons i is ih =>
    obtain ⟨hsound, hroom, hfds⟩ := h.freeFd (p := p) (i := i) hr
    obtain ⟨hall, hnone⟩ := ih hsound hroom
    refine ⟨hall, fun j hj => hnone j ?_⟩
    rw [hfds, update_apply]
    by_cases hji : j = i
    · exact Or.inr (if_pos (by rw [hji]))
    · have hne : (p, j) ≠ (p, i) := fun heq => hji (Prod.ext_iff.mp heq).2
      rw [if_neg hne]
      exact hj.imp_left fun hmem => (List.mem_cons.mp hmem).resolve_left hji

theorem Sound.procFree (hr : Room s L n) : Sound (s.procFree p) L := by
  obtain ⟨hsound, hnone⟩ := h.freeFds (p := p) hr (List.finRange maxFiles)
  rw [State.procFree]
  generalize (List.finRange maxFiles).foldl (State.freeFd p) s = t at hsound hnone ⊢
  have hc := hsound.counted
  refine ⟨⟨hc.1, hc.2, hc.3, hc.4, hc.5⟩, fun q hq j => ?_, hsound.paired⟩
  by_cases hqp : q = p
  · rw [hqp]
    exact hnone j (Or.inl (List.mem_finRange j))
  · change update t.live p false q = false at hq
    rw [update_of_ne hqp] at hq
    exact hsound.dead q hq j

omit [DecidableEq P] in
theorem Sound.vput (v : VPtr) : Sound (s.vput v) L :=
  ⟨⟨h.counted.1, h.counted.2, h.counted.3, h.counted.4, h.counted.5⟩, h.dead, h.paired⟩

end

theorem holders_procAllocFd_le (s : State P) (p : P) (f : FPtr) :
    (s.procAllocFd p f).1.holders ≤ f ::ₘ s.holders := by
  obtain heq | ⟨i, hi, heq⟩ := s.procAllocFd_cases p f
  · rw [heq]
    exact le_cons_self _ _
  · rw [heq]
    exact (holders_setFd_some (s := s.fileRef f) hi f).le

omit [Fintype P] in
theorem copyFd_live (p c : P) (s : State P) (i : Fin maxFiles) :
    (State.copyFd p c s i).live = s.live := by
  rw [State.copyFd]
  cases s.fds (p, i) <;> rfl

omit [Fintype P] in
theorem copyFd_fds (p c : P) (s : State P) {i j : Fin maxFiles} (h : j ≠ i) :
    (State.copyFd p c s i).fds (c, j) = s.fds (c, j) := by
  have hne : (c, j) ≠ (c, i) := fun heq => h (Prod.ext_iff.mp heq).2
  rw [State.copyFd]
  cases s.fds (p, i) <;> exact update_of_ne hne _ _

theorem Sound.copyFds {c : P} {is : List (Fin maxFiles)} (h : Sound s L) (hc : s.live c = true)
    (hnodup : is.Nodup) (hfree : ∀ i ∈ is, s.fds (c, i) = none) :
    Sound (is.foldl (State.copyFd p c) s) L := by
  induction is generalizing s with
  | nil => exact h
  | cons i is ih =>
    obtain ⟨hnot, hnodup⟩ := List.nodup_cons.mp hnodup
    refine ih (h.copyFd hc (hfree i List.mem_cons_self)) ?_ hnodup fun j hj => ?_
    · rw [copyFd_live]
      exact hc
    · have hji : j ≠ i := fun heq => hnot (heq ▸ hj)
      rw [copyFd_fds p c s hji]
      exact hfree j (List.mem_cons_of_mem i hj)

theorem Sound.copyTable {c : P} (h : Sound s L) (hc : s.live c = false) :
    Sound (s.copyTable p c) L := by
  have hcreated : Sound { s with live := update s.live c true } L := by
    refine ⟨⟨h.counted.1, h.counted.2, h.counted.3, h.counted.4, h.counted.5⟩, ?_, h.paired⟩
    intro q hq
    change update s.live c true q = false at hq
    rw [update_apply] at hq
    split_ifs at hq
    exact h.dead q hq
  exact hcreated.copyFds (update_self _ _ _) (List.nodup_finRange _)
    fun i _ => h.dead c hc i

theorem Sound.takeCloexecs (h : Sound s (fs + L))
    (hr : Room s (fs + L) n) (is : List (Fin maxFiles)) :
    let r := is.foldl (takeCloexec p) (s, fs)
    Sound r.1 (r.2 + L) ∧ Room r.1 (r.2 + L) n := by
  induction is generalizing s fs with
  | nil => exact ⟨h, hr⟩
  | cons i is ih =>
    rw [List.foldl_cons, takeCloexec]
    cases hi : s.fds (p, i) with
    | none => exact ih h hr
    | some f =>
      dsimp only
      split_ifs
      · exact ih h hr
      · have hlist : ((fs ++ [f] : List FPtr) : Multiset FPtr) + L = f ::ₘ (fs + L) := by
          rw [← coe_add, coe_singleton, add_right_comm, add_comm, singleton_add]
        have htotal : (f ::ₘ ((fs : Multiset FPtr) + L)) + (s.setFd p i none).holders =
            fs + L + s.holders := by
          rw [← holders_setFd_none hi, cons_add, add_cons]
        apply ih
        · rw [hlist]
          exact h.setFd_none hi
        · rw [hlist]
          exact hr.mono htotal.le

theorem Sound.exec (h : Sound s L) (hr : Room s L n) : Sound (s.exec p) L := by
  have hnil : (([] : List FPtr) : Multiset FPtr) + L = L := zero_add L
  rw [← hnil] at h hr
  obtain ⟨hsound, hroom⟩ := h.takeCloexecs (p := p) hr (List.finRange maxFiles)
  rw [State.exec]
  generalize (List.finRange maxFiles).foldl (takeCloexec p) (s, []) = r at hsound hroom ⊢
  exact hsound.fileCloses hroom

theorem Sound.procAllocFd_new (h : Sound s (f ::ₘ L)) (hp : s.live p = true)
    (hf : f ∉ L + s.holders) : s.procAllocFd p f = (s, none) ∨
    ∃ i t, s.procAllocFd p f = (t, some i) ∧ Sound (t.fileClose f) L ∧ s.fds (p, i) = none ∧
      (t.fileClose f).fds = update s.fds (p, i) (some f) ∧
      (t.fileClose f).holders = f ::ₘ s.holders ∧ (t.fileClose f).live = s.live := by
  obtain heq | ⟨i, hi, heq⟩ := s.procAllocFd_cases p f
  · exact Or.inl heq
  · have hholders : ((s.fileRef f).setFd p i (some f)).holders = f ::ₘ s.holders :=
      holders_setFd_some (s := s.fileRef f) hi f
    have hslot : Sound ((s.fileRef f).setFd p i (some f)) (f ::ₘ L) :=
      (h.fileRef (by simp)).setFd_some hi hp
    refine Or.inr ⟨i, _, heq, hslot.fileClose ?_, hi, fileClose_fds _ _, ?_, fileClose_live _ _⟩
    · rw [hholders, add_cons, count_cons_self, count_eq_zero.mpr hf]
      decide
    · rw [fileClose_holders, hholders]

theorem Sound.installPair {f1 f2 : FPtr} (h : Sound s (f1 ::ₘ f2 ::ₘ L)) (hp : s.live p = true)
    (hne : f1 ≠ f2) (h1 : f1 ∉ L + s.holders) (h2 : f2 ∉ L + s.holders) (copied : Bool) :
    Sound (s.installPair p f1 f2 copied) L := by
  rw [State.installPair]
  have hnot : f1 ∉ (f2 ::ₘ L) + s.holders := by
    rw [cons_add, mem_cons, not_or]
    exact ⟨hne, h1⟩
  obtain heq | ⟨i, t, heq, ht, -, hfds, hholders, hlive⟩ := h.procAllocFd_new hp hnot
  · rw [heq]
    exact h.closePair hne h1 h2
  rw [heq]
  dsimp only
  generalize t.fileClose f1 = t1 at ht hfds hholders hlive ⊢
  have hslot1 : t1.fds (p, i) = some f1 := by rw [hfds, update_self]
  have hnot2 : f2 ∉ L + t1.holders := by
    rw [hholders, add_cons, mem_cons, not_or]
    exact ⟨hne.symm, h2⟩
  obtain heq2 | ⟨j, u, heq2, hu, hj, hfds2, hholders2, -⟩ :=
    ht.procAllocFd_new (hlive ▸ hp) hnot2
  · -- the slot of the first file is cleared again
    rw [heq2]
    have hback : (t1.setFd p i none).holders = s.holders := by
      have hcons := (holders_setFd_none hslot1).trans hholders
      exact (cons_inj_right f1).mp hcons
    apply (ht.setFd_none hslot1).closePair hne
    · rw [hback]
      exact h1
    · rw [hback]
      exact h2
  rw [heq2]
  dsimp only
  split_ifs
  · exact hu
  generalize u.fileClose f2 = t2 at hu hfds2 hholders2 ⊢
  have hij : i ≠ j := by
    rintro rfl
    exact absurd (hslot1.symm.trans hj) (by simp)
  have hslot1' : t2.fds (p, i) = some f1 := by
    rw [hfds2, update_of_ne (by simp [hij]), hslot1]
  have hslot2 : (t2.setFd p i none).fds (p, j) = some f2 := by
    change update t2.fds (p, i) none (p, j) = some f2
    rw [update_of_ne (by simp [hij.symm]), hfds2, update_self]
  have hback : ((t2.setFd p i none).setFd p j none).holders = s.holders := by
    have hcons : f1 ::ₘ f2 ::ₘ ((t2.setFd p i none).setFd p j none).holders =
        f1 ::ₘ f2 ::ₘ s.holders := by
      rw [holders_setFd_none hslot2, holders_setFd_none hslot1', hholders2, hholders, cons_swap]
    exact (cons_inj_right f2).mp ((cons_inj_right f1).mp hcons)
  have hboth := (hu.setFd_none hslot1').setFd_none hslot2
  rw [cons_swap] at hboth
  apply hboth.closePair hne
  · rw [hback]
    exact h1
  · rw [hback]
    exact h2

theorem Sound.openPair (h : Sound s L) (hp : s.live p = true) (v1 v2 : VPtr)
    (flags1 flags2 : BitVec 32) (fate : Fate) :
    Sound (s.openPair p v1 v2 flags1 flags2 fate) L := by
  have hnew := h.counted.nextFile_notMem
  have hfirst := h.fileAlloc v1 flags1
  rw [State.openPair]
  split_ifs
  · have hsecond := hfirst.fileAlloc v2 flags2
    have hnew2 := hfirst.counted.nextFile_notMem
    rw [cons_add, mem_cons, not_or] at hnew2
    rw [cons_swap] at hsecond
    exact hsecond.installPair hp (Ne.symm hnew2.1) hnew hnew2.2 fate.copied
  · refine Sound.vput (hfirst.fileClose ?_) v2
    have hcount : (L + (s.fileAlloc v1 flags1).holders).count s.nextFile = 0 :=
      count_eq_zero.mpr hnew
    rw [hcount]
    decide
  · exact (h.vput v1).vput v2

end Slots

end State
end FileRefs
end Doppio
