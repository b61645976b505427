import Doppio.Sys.FileHolders

/-! The count of a file is the number of its holders, and its vnode is dropped with the last of
them. -/
namespace Doppio
open Function Option
open Nat Multiset
namespace FileRefs
open ScmRights (FPtr maxFiles sizeofCmsghdr maxToPass pushFiles popFiles)

namespace State
variable {P : Type} [Fintype P] {s s' : State P} {L T : Multiset FPtr} {f : FPtr} {p : P} {fd : ℤ}
  {v w : VPtr} {k : Sock} {n : ℕ}

theorem holders_setSock (hv : v < s.nextVnode) (k : Option Sock) :
    ringFiles (s.sock v) + (s.setSock v k).holders = ringFiles k + s.holders := by
  have hmem := Finset.mem_range.mpr hv
  have hupdate : (fun u => ringFiles ((s.setSock v k).sock u)) =
      update (fun u => ringFiles (s.sock u)) v (ringFiles k) := by
    funext u
    change ringFiles (update s.sock v k u) = _
    rw [update_apply, update_apply]
    split_ifs <;> rfl
  have hnew : (s.setSock v k).rings =
      ringFiles k + ∑ u ∈ Finset.range s.nextVnode \ {v}, ringFiles (s.sock u) := by
    rw [rings, hupdate]
    exact Finset.sum_update_of_mem hmem _ _
  have hold : s.rings =
      ringFiles (s.sock v) + ∑ u ∈ Finset.range s.nextVnode \ {v}, ringFiles (s.sock u) :=
    Finset.sum_eq_add_sum_sdiff_singleton_of_mem hmem _
  change _ + (RefCount.table s.fds + (s.held + (s.setSock v k).rings)) = _
  rw [holders, hnew, hold]
  abel

variable {r : ScmRights.Passed}

theorem pushFiles_perm (h : r.Valid) (fs : List FPtr) :
    (pushFiles r fs).1.Valid ∧
      ((pushFiles r fs).2.2 : Multiset FPtr) + (pushFiles r fs).1.contents = fs + r.contents := by
  induction fs generalizing r with
  | nil => exact ⟨h, rfl⟩
  | cons f fs ih =>
    rw [pushFiles]
    split_ifs with hfull
    · obtain ⟨hvalid, hsum⟩ := ih h
      refine ⟨hvalid, ?_⟩
      rw [← cons_coe, ← cons_coe, cons_add, cons_add, hsum]
    · obtain ⟨hvalid, hsum⟩ := ih (h.store f)
      refine ⟨hvalid, hsum.trans ?_⟩
      rw [GapRing.contents_store h hfull, ← coe_add, ← cons_coe f fs, ← add_assoc]
      exact add_comm _ _

omit [Fintype P] in
theorem Paired.remove (h : Paired s) (hk : s.sock v = some k) (hn : s'.nextVnode = s.nextVnode)
    (hget : ∀ u k', s'.sock u = some k' → u ≠ v ∧ ∃ k0, s.sock u = some k0 ∧
      k'.passed = k0.passed ∧ (k'.peer = none ∨ k'.peer = k0.peer ∧ k.peer ≠ some u))
    (hkeep : ∀ u, u ≠ v → k.peer ≠ some u → s'.sock u = s.sock u) : Paired s' := by
  intro u k' hu
  obtain ⟨huv, k0, hk0, hpassed, hpeer⟩ := hget u k' hu
  obtain ⟨hlt, hvalid, hpair⟩ := h u k0 hk0
  refine ⟨hn ▸ hlt, hpassed ▸ hvalid, fun x hx => ?_⟩
  obtain hnone | ⟨hsame, hku⟩ := hpeer
  · exact absurd (hnone.symm.trans hx) (by simp)
  obtain ⟨hne, k1, hk1, hback⟩ := hpair x (hsame ▸ hx)
  have hxv : x ≠ v := by
    rintro rfl
    rw [hk] at hk1
    cases hk1
    exact hku hback
  have hkx : k.peer ≠ some x := by
    intro hkx
    obtain ⟨-, k2, hk2, hback2⟩ := (h v k hk).2.2 x hkx
    rw [hk1] at hk2
    cases hk2
    exact huv (some.inj (hback.symm.trans hback2))
  exact ⟨hne, k1, (hkeep x hxv hkx).trans hk1, hback⟩

section
variable (h : Sound s L)
include h

theorem Sound.sock_none (hv : s.nextVnode ≤ v) : s.sock v = none := by
  cases hk : s.sock v with
  | none => rfl
  | some k => exact absurd (h.paired v k hk).1 (not_lt.mpr hv)

theorem Sound.vnodeAlloc : Sound s.vnodeAlloc L := by
  have hnone : s.sock s.nextVnode = none := h.sock_none le_rfl
  have hrings : s.vnodeAlloc.rings = s.rings := by
    change ∑ v ∈ Finset.range (s.nextVnode + 1), ringFiles (s.sock v) = _
    rw [Finset.sum_range_succ, hnone]
    exact add_zero _
  have hc := h.counted
  have hholders : s.vnodeAlloc.holders = s.holders := by
    change RefCount.table s.fds + (s.held + s.vnodeAlloc.rings) = _
    rw [hrings]
    rfl
  rw [← hholders] at hc
  refine ⟨⟨hc.1, hc.2, hc.3, hc.4, hc.5⟩, h.dead, fun v k hk => ?_⟩
  obtain ⟨hlt, hrest⟩ := h.paired v k hk
  exact ⟨lt_succ_of_lt hlt, hrest⟩

theorem Sound.setSock {k : Option Sock} (hv : v < s.nextVnode)
    (hmove : T + ringFiles k = L + ringFiles (s.sock v)) (hp : Paired (s.setSock v k)) :
    Sound (s.setSock v k) T ∧ T + (s.setSock v k).holders = L + s.holders := by
  have htotal : T + (s.setSock v k).holders = L + s.holders := by
    apply add_left_cancel (a := ringFiles (s.sock v))
    calc ringFiles (s.sock v) + (T + (s.setSock v k).holders)
        = T + (ringFiles (s.sock v) + (s.setSock v k).holders) := add_left_comm _ _ _
      _ = (T + ringFiles k) + s.holders := by rw [holders_setSock hv, add_assoc]
      _ = ringFiles (s.sock v) + (L + s.holders) := by rw [hmove]; abel
  have hc := h.counted
  rw [← htotal] at hc
  exact ⟨⟨⟨hc.1, hc.2, hc.3, hc.4, hc.5⟩, h.dead, hp⟩, htotal⟩

theorem Sound.detach (hk : s.sock v = some k) :
    ∃ t, s.detach v k.peer = some t ∧ Sound (t.setSock v none) (k.passed.contents + L) ∧
      (k.passed.contents + L : Multiset FPtr) + (t.setSock v none).holders = L + s.holders := by
  obtain ⟨hlt, -, hpair⟩ := h.paired v k hk
  suffices ∃ t : State P, s.detach v k.peer = some t ∧ t.holders = s.holders ∧ t.sock v = some k ∧
      t.nextVnode = s.nextVnode ∧ Counted t (L + t.holders) ∧
      (∀ p, t.live p = false → ∀ i, t.fds (p, i) = none) ∧ Paired (t.setSock v none) by
    obtain ⟨t, ht, hholders, hkt, hn, hc, hdead, hpaired⟩ := this
    have hring := holders_setSock (s := t) (v := v) (hn ▸ hlt) none
    rw [hkt] at hring
    have hmove : (k.passed.contents + L : Multiset FPtr) + (t.setSock v none).holders =
        L + t.holders := by
      rw [add_right_comm, add_comm]
      exact congrArg (L + ·) (hring.trans (zero_add _))
    rw [← hmove] at hc
    exact ⟨t, ht, ⟨⟨hc.1, hc.2, hc.3, hc.4, hc.5⟩, hdead, hpaired⟩, hholders ▸ hmove⟩
  cases hpeer : k.peer with
  | none =>
    refine ⟨s, rfl, rfl, hk, rfl, h.counted, h.dead, h.paired.remove hk rfl ?_ ?_⟩
    · intro u k' hu
      change update s.sock v none u = some k' at hu
      rw [update_apply] at hu
      split_ifs at hu with huv
      exact ⟨huv, k', hu, rfl, Or.inr ⟨rfl, by simp [hpeer]⟩⟩
    · intro u huv _
      exact update_of_ne huv _ _
  | some w =>
    obtain ⟨hwv, kw, hkw, hback⟩ := hpair w hpeer
    have hltw := (h.paired w kw hkw).1
    have hholders : (s.setSock w (some { kw with peer := none, connected := false })).holders =
        s.holders := by
      have hring := holders_setSock hltw (some { kw with peer := none, connected := false })
      rw [hkw] at hring
      exact add_left_cancel hring
    have hc := h.counted
    rw [← hholders] at hc
    refine ⟨s.setSock w (some { kw with peer := none, connected := false }), ?_, hholders, ?_, rfl,
      ⟨hc.1, hc.2, hc.3, hc.4, hc.5⟩, h.dead, h.paired.remove hk rfl ?_ ?_⟩
    · rw [State.detach, hkw]
      dsimp only
      rw [if_pos hback]
    · exact (update_of_ne hwv.symm _ _).trans hk
    · intro u k' hu
      change update (update s.sock w _) v none u = some k' at hu
      rw [update_apply] at hu
      split_ifs at hu with huv
      rw [update_apply] at hu
      split_ifs at hu with huw
      · cases hu
        exact ⟨huv, kw, huw ▸ hkw, rfl, Or.inl rfl⟩
      · refine ⟨huv, k', hu, rfl, Or.inr ⟨rfl, fun heq => huw ?_⟩⟩
        exact (some.inj (hpeer.symm.trans heq)).symm
    · intro u huv hku
      have huw : u ≠ w := by
        rintro rfl
        exact hku hpeer
      exact (update_of_ne huv _ _).trans (update_of_ne huw _ _)

theorem Sound.sockClose (hr : Room s L n) (v : VPtr) :
    ∃ s', s.sockClose v = some s' ∧ Sound s' L := by
  rw [State.sockClose]
  cases hk : s.sock v with
  | none => exact ⟨s, rfl, h⟩
  | some k =>
    obtain ⟨t, ht, hsound, htotal⟩ := h.detach hk
    dsimp only
    rw [ht, ScmRights.popFiles_all (h.paired v k hk).2.1]
    exact ⟨_, rfl, hsound.fileCloses (hr.mono htotal.le)⟩

end

omit [Fintype P] in
theorem Paired.setPassed (h : Paired s) (hk : s.sock v = some k) (hr : r.Valid) :
    Paired (s.setSock v (some { k with passed := r })) := by
  have hget : ∀ u k', (s.setSock v (some { k with passed := r })).sock u = some k' →
      ∃ k0, s.sock u = some k0 ∧ k'.peer = k0.peer ∧ k'.passed.Valid := by
    intro u k' hu
    change update s.sock v _ u = some k' at hu
    rw [update_apply] at hu
    split_ifs at hu with huv
    · cases hu
      exact ⟨k, huv ▸ hk, rfl, hr⟩
    · exact ⟨k', hu, rfl, (h u k' hu).2.1⟩
  have hput : ∀ u k0, s.sock u = some k0 →
      ∃ k', (s.setSock v (some { k with passed := r })).sock u = some k' ∧ k'.peer = k0.peer := by
    intro u k0 hu
    change ∃ k', update s.sock v _ u = some k' ∧ _
    rw [update_apply]
    split_ifs with huv
    · rw [huv, hk] at hu
      cases hu
      exact ⟨_, rfl, rfl⟩
    · exact ⟨k0, hu, rfl⟩
  intro u k' hu
  obtain ⟨k0, hk0, hpeer, hvalid⟩ := hget u k' hu
  obtain ⟨hlt, -, hpair⟩ := h u k0 hk0
  refine ⟨hlt, hvalid, fun x hx => ?_⟩
  obtain ⟨hne, k1, hk1, hback⟩ := hpair x (hpeer ▸ hx)
  obtain ⟨k2, hk2, hpeer2⟩ := hput x k1 hk1
  exact ⟨hne, k2, hk2, hpeer2.trans hback⟩

omit [Fintype P] in
theorem sock_of_sockOf (h : s.sockOf f = some (v, k)) : s.sock v = some k := by
  rw [sockOf] at h
  cases hvn : (s.file f).vn with
  | none =>
    rw [hvn] at h
    cases h
  | some u =>
    rw [hvn] at h
    obtain ⟨k', hk', heq⟩ := map_eq_some_iff.mp h
    cases heq
    exact hk'

section Calls
variable [DecidableEq P]

omit [Fintype P] in
theorem procAllocFd_live (s : State P) (p : P) (f : FPtr) :
    (s.procAllocFd p f).1.live = s.live := by
  obtain heq | ⟨i, -, heq⟩ := s.procAllocFd_cases p f
  · rw [heq]
  · rw [heq]
    rfl

theorem Sound.installFile (h : Sound s (f ::ₘ L)) (hr : Room s (f ::ₘ L) 1)
    (hp : s.live p = true) : Sound (installFile p s f) L ∧ Room (State.installFile p s f) L 1 := by
  have halloc : Sound (s.procAllocFd p f).1 (f ::ₘ L) := h.procAllocFd (by simp) hp
  have hle : L + (s.procAllocFd p f).1.holders ≤ (f ::ₘ L) + s.holders := by
    rw [cons_add, ← add_cons]
    exact add_le_add le_rfl (holders_procAllocFd_le s p f)
  have hroom : Room (s.procAllocFd p f).1 L 1 := hr.mono hle
  refine ⟨halloc.fileClose (hroom f), ?_⟩
  exact hroom.mono (by rw [State.installFile, fileClose_holders])

theorem Sound.installFiles {fs : List FPtr} (h : Sound s (fs + L)) (hr : Room s (fs + L) 1)
    (hp : s.live p = true) :
    Sound (fs.foldl (State.installFile p) s) L ∧ Room (fs.foldl (State.installFile p) s) L 1 := by
  induction fs generalizing s with
  | nil =>
    have hnil : (([] : List FPtr) : Multiset FPtr) + L = L := zero_add L
    rw [hnil] at h hr
    exact ⟨h, hr⟩
  | cons f fs ih =>
    rw [← cons_coe, cons_add] at h hr
    obtain ⟨hsound, hroom⟩ := h.installFile hr hp
    refine ih hsound hroom ?_
    rw [State.installFile, fileClose_live, procAllocFd_live]
    exact hp

theorem sockAlloc_valid (w : VPtr) : (sockAlloc w).passed.Valid :=
  ⟨(by decide : 0 < 256), (by decide : 0 < 256)⟩

omit [DecidableEq P] [Fintype P] in
theorem Paired.newPair (h : Paired s) {v1 v2 : VPtr} (h1 : v1 < s.nextVnode)
    (h2 : v2 < s.nextVnode) (hne : v1 ≠ v2) (hs1 : s.sock v1 = none) (hs2 : s.sock v2 = none) :
    Paired ((s.setSock v1 (some (sockAlloc v2))).setSock v2 (some (sockAlloc v1))) := by
  have hsock : ∀ u, ((s.setSock v1 (some (sockAlloc v2))).setSock v2 (some (sockAlloc v1))).sock u =
      if u = v2 then some (sockAlloc v1) else if u = v1 then some (sockAlloc v2) else s.sock u := by
    intro u
    change update (update s.sock v1 _) v2 _ u = _
    rw [update_apply, update_apply]
  intro u k' hu
  rw [hsock] at hu
  split_ifs at hu with hu2 hu1
  · cases hu
    refine ⟨hu2 ▸ h2, sockAlloc_valid v1, fun x hx => ?_⟩
    cases hx
    rw [hu2, hsock, if_neg hne, if_pos rfl]
    exact ⟨hne, _, rfl, rfl⟩
  · cases hu
    refine ⟨hu1 ▸ h1, sockAlloc_valid v2, fun x hx => ?_⟩
    cases hx
    rw [hu1, hsock, if_pos rfl]
    exact ⟨hne.symm, _, rfl, rfl⟩
  · obtain ⟨hlt, hr, hpair⟩ := h u k' hu
    refine ⟨hlt, hr, fun x hx => ?_⟩
    obtain ⟨hxu, k1, hk1, hback⟩ := hpair x hx
    have hx2 : x ≠ v2 := by
      rintro rfl
      exact absurd (hs2.symm.trans hk1) (by simp)
    have hx1 : x ≠ v1 := by
      rintro rfl
      exact absurd (hs1.symm.trans hk1) (by simp)
    rw [hsock, if_neg hx2, if_neg hx1]
    exact ⟨hxu, k1, hk1, hback⟩

omit [DecidableEq P] in
theorem holders_sockAlloc (hv : v < s.nextVnode) (hnone : s.sock v = none) (w : VPtr) :
    (s.setSock v (some (sockAlloc w))).holders = s.holders := by
  have hnil : (sockAlloc w).passed.contents = [] :=
    List.eq_nil_of_length_eq_zero ((GapRing.length_contents _).trans
      ((GapRing.count_eq_zero_iff (sockAlloc_valid w)).mpr rfl))
  have hempty : ringFiles (some (sockAlloc w)) = 0 :=
    congrArg (fun l : List FPtr => (l : Multiset FPtr)) hnil
  have hring := holders_setSock hv (some (sockAlloc w))
  rw [hnone, hempty] at hring
  exact add_left_cancel hring

section
variable (h : Sound s L)
include h

theorem Sound.fdgetAll {fds : List ℤ} (hr : Room s L (n + fds.length)) :
    Sound (State.fdgetAll p s fds).1 ((State.fdgetAll p s fds).2 + L) ∧
      Room (State.fdgetAll p s fds).1 ((State.fdgetAll p s fds).2 + L) n ∧
      (State.fdgetAll p s fds).1.sock = s.sock := by
  induction fds generalizing s L n with
  | nil =>
    rw [State.fdgetAll]
    have hnil : (([] : List FPtr) : Multiset FPtr) + L = L := zero_add L
    rw [hnil]
    exact ⟨h, hr, rfl⟩
  | cons fd fds ih =>
    rw [State.fdgetAll]
    obtain heq | ⟨f, hf, heq⟩ := s.fdget_cases p fd
    · rw [heq]
      exact ih h fun g => by
        have hg := hr g
        rw [List.length_cons] at hg
        omega
    · rw [heq]
      have hget := h.fileRef (mem_add.mpr (Or.inr hf))
      obtain ⟨hsound, hroom, hsock⟩ := ih hget hr.fileRef
      rw [← cons_coe, cons_add, ← add_cons]
      exact ⟨hsound, hroom, hsock⟩

theorem Sound.sendFiles (hr : Room s L (n + 64)) (hk : s.sock w = some k)
    (fds : List ℤ) :
    Sound (s.sendFiles p w k fds) L ∧ Room (s.sendFiles p w k fds) L n := by
  have hroom : Room s L (n + (fds.take 64).length) := fun g => by
    have hg := hr g
    have hlen := List.length_take_le 64 fds
    omega
  obtain ⟨hget, hgetRoom, hsock⟩ := h.fdgetAll (p := p) hroom
  rw [State.sendFiles]
  generalize State.fdgetAll p s (fds.take 64) = r at hget hgetRoom hsock ⊢
  obtain ⟨t, files⟩ := r
  dsimp only at hget hgetRoom hsock ⊢
  have hkt : t.sock w = some k := by rw [hsock, hk]
  obtain ⟨hlt, hvalid, -⟩ := hget.paired w k hkt
  obtain ⟨hvalid', hsum⟩ := pushFiles_perm hvalid files
  generalize pushFiles k.passed files = q at hvalid' hsum ⊢
  obtain ⟨r, queued, closed⟩ := q
  have hmove : (closed + L : Multiset FPtr) + ringFiles (some { k with passed := r }) =
      files + L + ringFiles (t.sock w) := by
    rw [hkt]
    change (closed : Multiset FPtr) + L + r.contents = files + L + k.passed.contents
    rw [add_right_comm, hsum, add_right_comm]
  obtain ⟨hset, htotal⟩ := hget.setSock hlt hmove (hget.paired.setPassed hkt hvalid')
  have hsetRoom := hgetRoom.mono htotal.le
  exact ⟨hset.fileCloses hsetRoom, hsetRoom.fileCloses⟩

theorem Sound.sendmsg (hr : Room s L 65) (p : P) (fd : ℤ) (msg : Option (List ℤ)) :
    ∃ s', s.sendmsg p fd msg = some s' ∧ Sound s' L := by
  rw [State.sendmsg]
  obtain heq | ⟨f, hf, heq⟩ := s.fdget_cases p fd
  · exact ⟨s, by rw [heq], h⟩
  rw [heq]
  have hget := h.fileRef (mem_add.mpr (Or.inr hf))
  have hroom : Room (s.fileRef f) (f ::ₘ L) 64 := hr.fileRef
  have hput := hget.fileClose_of_room hroom
  dsimp only
  cases hsock : (s.fileRef f).sockOf f with
  | none => exact ⟨_, rfl, hput⟩
  | some vk =>
    cases msg with
    | none => exact ⟨_, rfl, hput⟩
    | some fds =>
      obtain ⟨v, k⟩ := vk
      dsimp only
      cases hpeer : k.peer with
      | none => exact ⟨_, rfl, hput⟩
      | some w =>
        obtain ⟨-, kp, hkp, -⟩ := (hget.paired v k (sock_of_sockOf hsock)).2.2 w hpeer
        dsimp only
        rw [hkp]
        dsimp only
        split_ifs
        · obtain ⟨hsent, hsentRoom⟩ := hget.sendFiles (p := p) (n := 0) hroom hkp fds
          exact ⟨_, rfl, hsent.fileClose_of_room hsentRoom⟩
        · exact ⟨_, rfl, hput⟩

theorem Sound.recvmsg {control : Option (BitVec 64)} (hr : Room s L 2)
    (hp : s.live p = true) : Sound (s.recvmsg p fd control) L := by
  rw [State.recvmsg]
  obtain heq | ⟨f, hf, heq⟩ := s.fdget_cases p fd
  · rw [heq]
    exact h
  rw [heq]
  have hget := h.fileRef (mem_add.mpr (Or.inr hf))
  have hroom : Room (s.fileRef f) (f ::ₘ L) 1 := hr.fileRef
  have hput := hget.fileClose_of_room hroom
  dsimp only
  cases hsock : (s.fileRef f).sockOf f with
  | none => exact hput
  | some vk =>
    cases control with
    | none => exact hput
    | some len =>
      obtain ⟨v, k⟩ := vk
      dsimp only
      split_ifs
      · have hk := sock_of_sockOf hsock
        obtain ⟨hlt, hvalid, -⟩ := hget.paired v k hk
        obtain ⟨fs, r, hpop, hvalid', hcontents, -⟩ :=
          ScmRights.popFiles_spec hvalid (maxToPass len).toNat
        rw [hpop]
        have hmove : (fs + (f ::ₘ L) : Multiset FPtr) + ringFiles (some { k with passed := r }) =
            (f ::ₘ L) + ringFiles ((s.fileRef f).sock v) := by
          rw [hk]
          change (fs + (f ::ₘ L) : Multiset FPtr) + r.contents = (f ::ₘ L) + k.passed.contents
          rw [hcontents, add_right_comm]
          exact add_comm _ _
        obtain ⟨hset, htotal⟩ := hget.setSock hlt hmove (hget.paired.setPassed hk hvalid')
        obtain ⟨hinst, hinstRoom⟩ := hset.installFiles (hroom.mono htotal.le) hp
        exact hinst.fileClose_of_room hinstRoom
      · exact hput

theorem Sound.pipe2 (hp : s.live p = true) (flags : BitVec 32) (fate : Fate) :
    Sound (s.pipe2 p flags fate) L := by
  rw [State.pipe2]
  split_ifs
  · exact h
  · exact h.vnodeAlloc.vnodeAlloc.openPair hp _ _ _ _ fate
  · exact h.vnodeAlloc.vput _

omit [DecidableEq P] in
theorem Sound.newPair {v1 v2 : VPtr} (h1 : v1 < s.nextVnode)
    (h2 : v2 < s.nextVnode) (hne : v1 ≠ v2) (hs1 : s.sock v1 = none) (hs2 : s.sock v2 = none) :
    Sound ((s.setSock v1 (some (sockAlloc v2))).setSock v2 (some (sockAlloc v1))) L := by
  have hs2' : (s.setSock v1 (some (sockAlloc v2))).sock v2 = none :=
    (update_of_ne hne.symm _ _).trans hs2
  have hc := h.counted
  rw [← holders_sockAlloc h1 hs1 v2,
    ← holders_sockAlloc (s := s.setSock v1 (some (sockAlloc v2))) h2 hs2' v1] at hc
  exact ⟨⟨hc.1, hc.2, hc.3, hc.4, hc.5⟩, h.dead, h.paired.newPair h1 h2 hne hs1 hs2⟩

theorem Sound.socketpair (hp : s.live p = true) (type : BitVec 32) (fate : Fate) :
    Sound (s.socketpair p type fate) L := by
  rw [State.socketpair]
  split_ifs
  · exact h
  · have hlt : s.nextVnode < s.nextVnode + 1 + 1 := lt_succ_of_lt (lt_succ_self _)
    have hpair := h.vnodeAlloc.vnodeAlloc.newPair hlt (lt_succ_self (s.nextVnode + 1))
      (Nat.ne_of_lt (lt_succ_self _)) (h.sock_none le_rfl) (h.sock_none (le_succ _))
    exact hpair.openPair hp _ _ _ _ fate
  · exact h.vnodeAlloc

omit [DecidableEq P] in
theorem Sound.setHeld (held : List FPtr)
    (hT : T + held = L + (s.held : Multiset FPtr)) : Sound { s with held := held } T ∧
      T + { s with held := held }.holders = L + s.holders := by
  have htotal : T + { s with held := held }.holders = L + s.holders := by
    change T + (RefCount.table s.fds + (held + s.rings)) = L + (RefCount.table s.fds +
      (s.held + s.rings))
    calc T + (RefCount.table s.fds + (held + s.rings))
        = (T + held) + (RefCount.table s.fds + s.rings) := by abel
      _ = L + (RefCount.table s.fds + (s.held + s.rings)) := by rw [hT]; abel
  have hc := h.counted
  rw [← htotal] at hc
  exact ⟨⟨⟨hc.1, hc.2, hc.3, hc.4, hc.5⟩, h.dead, h.paired⟩, htotal⟩

end

end Calls

end State

/-- The references a call takes at once to files already there. -/
def Event.takes {P : Type} : Event P → ℕ
  | .procAllocFd _ _ => 1
  | .fdget _ _ => 1
  | .dupfd _ _ _ => 2
  | .copyTable _ _ => maxFiles
  | .sendmsg _ _ _ => 65
  | .recvmsg _ _ _ => 2
  | _ => 0

namespace State
variable {P : Type} [Fintype P] [DecidableEq P] {s s' : State P} {e : Event P}

omit [DecidableEq P] in
theorem Sound.hold {f : FPtr} (h : Sound s (f ::ₘ 0)) :
    Sound (s.hold f) 0 := by
  refine (h.setHeld (s.held ++ [f]) ?_).1
  rw [← coe_add, zero_add, add_comm]
  rfl

theorem Sound.step (h : Sound s 0) (hr : Room s 0 e.takes) (hs : s.step e = some s') :
    Sound s' 0 := by
  cases e with
  | vnodeAlloc =>
    cases hs
    exact h.vnodeAlloc
  | fileAlloc v flags =>
    obtain ⟨-, hs⟩ := ite_none_right_eq_some.mp hs
    cases hs
    exact (h.fileAlloc v flags).hold
  | procAllocFd p f =>
    obtain ⟨⟨hp, hmem⟩, hs⟩ := ite_none_right_eq_some.mp hs
    cases hs
    refine h.procAllocFd ?_ hp
    have hheld : f ∈ (s.held : Multiset FPtr) := hmem
    simp [holders, hheld]
  | fdget p fd =>
    obtain ⟨hp, hs⟩ := ite_none_right_eq_some.mp hs
    obtain heq | ⟨f, hf, heq⟩ := s.fdget_cases p fd
    · rw [heq] at hs
      cases hs
      exact h
    · rw [heq] at hs
      cases hs
      exact (h.fileRef (mem_add.mpr (Or.inr hf))).hold
  | fdput f =>
    obtain ⟨hf, hs⟩ := ite_none_right_eq_some.mp hs
    have herase : (f ::ₘ 0 : Multiset FPtr) + (s.held.erase f : List FPtr) =
        0 + (s.held : Multiset FPtr) := by
      rw [zero_add, cons_add, zero_add, cons_coe, coe_eq_coe]
      exact (List.perm_cons_erase hf).symm
    obtain ⟨hheld, htotal⟩ := h.setHeld (s.held.erase f) herase
    cases hs
    exact hheld.fileClose_of_room (hr.mono htotal.le)
  | close p fd =>
    obtain ⟨-, hs⟩ := ite_none_right_eq_some.mp hs
    cases hs
    exact h.close hr
  | dupfd p fd arg =>
    obtain ⟨hp, hs⟩ := ite_none_right_eq_some.mp hs
    cases hs
    exact h.dupfd hp hr arg
  | copyTable p c =>
    obtain ⟨hp, hs⟩ := ite_none_right_eq_some.mp hs
    rw [← some.inj hs]
    exact h.copyTable (by simpa using hp.2)
  | procFree p =>
    obtain ⟨-, hs⟩ := ite_none_right_eq_some.mp hs
    rw [← some.inj hs]
    exact h.procFree hr
  | exec p =>
    obtain ⟨-, hs⟩ := ite_none_right_eq_some.mp hs
    rw [← some.inj hs]
    exact h.exec hr
  | pipe2 p flags fate =>
    obtain ⟨hp, hs⟩ := ite_none_right_eq_some.mp hs
    cases hs
    exact h.pipe2 hp flags fate
  | socketpair p type fate =>
    obtain ⟨hp, hs⟩ := ite_none_right_eq_some.mp hs
    cases hs
    exact h.socketpair hp type fate
  | sendmsg p fd msg =>
    obtain ⟨-, hs⟩ := ite_none_right_eq_some.mp hs
    obtain ⟨t, ht, hsound⟩ := h.sendmsg hr p fd msg
    rw [← some.inj (ht.symm.trans hs)]
    exact hsound
  | recvmsg p fd control =>
    obtain ⟨hp, hs⟩ := ite_none_right_eq_some.mp hs
    cases hs
    exact h.recvmsg hr hp
  | sockClose v =>
    obtain ⟨-, hs⟩ := ite_none_right_eq_some.mp hs
    have hsame : Sound { s with inactive := s.inactive.erase v } 0 :=
      ⟨⟨h.counted.1, h.counted.2, h.counted.3, h.counted.4, h.counted.5⟩, h.dead, h.paired⟩
    obtain ⟨t, ht, hsound⟩ := hsame.sockClose hr v
    rw [← some.inj (ht.symm.trans hs)]
    exact hsound

def boot (live : P → Bool) : State P where
  file _ := ⟨none, 0, 0⟩
  nextFile := 0
  nextVnode := 0
  live := live
  fds _ := none
  held := []
  sock _ := none
  inactive := []
  vputs _ := 0

omit [DecidableEq P] in
theorem sound_boot (live : P → Bool) : Sound (boot live) 0 := by
  have hholders : (boot live).holders = 0 := by
    change RefCount.table (fun _ => none) + (0 + 0) = 0
    rw [RefCount.table_empty]
    rfl
  refine ⟨?_, fun _ _ _ => rfl, nofun⟩
  rw [hholders]
  exact ⟨fun _ => rfl, nofun, nofun, fun _ hf => absurd hf (Nat.not_lt_zero _), fun _ _ => rfl⟩

/-- Fewer than `2 ^ 32` holders of a file, also with `n` more. -/
def Few (s : State P) (n : ℕ) : Prop := ∀ f, s.holders.count f + n < 2 ^ 32

abbrev Reaches (ok : State P → Event P → Prop) : State P → State P → Prop :=
  Run.Reaches (fun s e s' => s.step e = some s') ok

omit [DecidableEq P] in
theorem Few.room {n : ℕ} (h : Few s n) : Room s 0 n := fun f => by
  rw [zero_add]
  exact h f

theorem sound_of_reaches {live : P → Bool}
    (h : Reaches (fun s e => Few s e.takes) (boot live) s) : Sound s 0 :=
  h.invariant (I := fun s => Sound s 0) (fun _ _ _ hI hok hstep => hI.step hok.room hstep)
    (sound_boot live)

/-- As long as no count comes to `2 ^ 32`, the count of a file is the number of descriptors and
holders in flight that name it, and its vnode has been dropped once if that came back to 0 and not
at all before. -/
theorem reaches_refcnt {live : P → Bool} (h : Reaches (fun s e => Few s e.takes) (boot live) s)
    (hs : Few s 0) (f : FPtr) : (s.file f).refcnt.toNat = s.holders.count f ∧
      s.vputs f = if f < s.nextFile ∧ s.holders.count f = 0 then 1 else 0 := by
  have hsound := (sound_of_reaches h).counted
  rw [zero_add] at hsound
  constructor
  · have hlt : s.holders.count f < 2 ^ 32 := hs f
    rw [hsound.refcnt f, BitVec.toNat_ofNat, mod_eq_of_lt hlt]
  · split_ifs with hzero
    · exact (hsound.dropped f hzero.1 (count_eq_zero.mp hzero.2)).2
    · by_cases hmem : f ∈ s.holders
      · exact (hsound.kept f hmem).2
      · apply hsound.fresh
        have hcount := count_eq_zero.mpr hmem
        exact Nat.le_of_not_lt fun hlt => hzero ⟨hlt, hcount⟩

theorem reaches_refcnt_sent : ∃ s : State Unit,
    Reaches (fun s e => Few s e.takes) (boot fun _ => true) s ∧ s.holders.count 0 = 3 ∧
      (s.file 0).refcnt.toNat = 3 ∧ s.vputs 0 = 0 ∧ s.vputs 3 = 1 := by
  obtain ⟨s, hs, hcard, hcount, hthree, hnext⟩ : ∃ s ∈ [Event.vnodeAlloc, .fileAlloc 0 0,
      .procAllocFd () 0, .fdput 0, .dupfd () 0 5,
      .socketpair () 0 ⟨true, true, true, true, true, true⟩, .sendmsg () 1 (some [0]),
      .pipe2 () 0 ⟨true, true, true, true, true, false⟩].foldlM
      (fun (s : State Unit) e => if s.holders.card + e.takes < 2 ^ 32 then s.step e else none)
      (boot fun _ => true), s.holders.card = 5 ∧ s.holders.count 0 = 3 ∧ s.holders.count 3 = 0 ∧
      s.nextFile = 5 := by
    decide +kernel
  have hfew : ∀ {s : State Unit} {n : ℕ}, s.holders.card + n < 2 ^ 32 → Few s n := by
    intro s n hlt f
    have hle := count_le_card f s.holders
    omega
  have hreach := (Run.reaches_of_guarded hs).mono fun s e (hlt : s.holders.card + e.takes < 2 ^ 32) =>
    hfew hlt
  have hlast : Few s 0 := hfew (by rw [hcard]; decide)
  obtain ⟨href, hputs⟩ := reaches_refcnt hreach hlast 0
  obtain ⟨-, hputs3⟩ := reaches_refcnt hreach hlast 3
  rw [hcount] at href hputs
  rw [hthree, hnext] at hputs3
  rw [if_neg (by omega)] at hputs
  exact ⟨s, hreach, hcount, href, hputs, hputs3⟩

omit [Fintype P] in
theorem step_fdget {p : P} {f : FPtr} (hp : s.live p = true) (hf : s.fds (p, 0) = some f)
    (hne : (s.file f).refcnt ≠ 0) :
    s.step (.fdget p 0) = some ((s.fileRef f).hold f) := by
  have hget : s.fdget p 0 = (s.fileRef f, some f) := by
    rw [State.fdget]
    have hslot : ((ScmRights.State.slot 0).bind fun i => s.fds (p, i)) = some f := hf
    rw [hslot]
    exact if_neg hne
  rw [State.step, if_pos hp, hget]

omit [DecidableEq P] in
theorem holders_hold (s : State P) (f : FPtr) :
    (s.hold f).holders = f ::ₘ s.holders := by
  change RefCount.table s.fds + (((s.held ++ [f] : List FPtr) : Multiset FPtr) + s.rings) = _
  rw [← coe_add, coe_singleton, ← singleton_add, holders]
  abel

theorem reaches_fdgets {n : ℕ} (hn : n + 2 ≤ 2 ^ 32) : ∃ s : State Unit,
    Reaches (fun _ _ => True) (boot fun _ => true) s ∧ s.live () = true ∧
      s.fds ((), 0) = some 0 ∧ s.holders.count 0 = n + 2 ∧
      (s.file 0).refcnt = BitVec.ofNat 32 (n + 2) := by
  induction n with
  | zero =>
    have hrun : ∃ s, [Event.vnodeAlloc, .fileAlloc 0 0, .procAllocFd () 0].foldlM State.step
        (boot fun _ : Unit => true) = some s ∧ s.live () = true ∧ s.fds ((), 0) = some 0 ∧
        s.holders.count 0 = 2 ∧ (s.file 0).refcnt = 2 := by
      refine ⟨_, rfl, rfl, rfl, ?_, rfl⟩
      decide +kernel
    obtain ⟨s, hs, hrest⟩ := hrun
    exact ⟨s, Run.reaches_of_foldlM hs, hrest⟩
  | succ n ih =>
    obtain ⟨s, hreach, hlive, hfd, hcount, href⟩ := ih (by omega)
    have hne : (s.file 0).refcnt ≠ 0 := by
      rw [href]
      intro hzero
      have htoNat := congrArg BitVec.toNat hzero
      rw [BitVec.toNat_ofNat, mod_eq_of_lt (by omega)] at htoNat
      exact absurd htoNat (succ_ne_zero _)
    refine ⟨_, hreach.trans (Run.Reaches.single _ trivial (step_fdget hlive hfd hne)), hlive, hfd,
      ?_, ?_⟩
    · rw [holders_hold]
      change (0 ::ₘ s.holders).count 0 = _
      rw [count_cons_self, hcount]
    · change ((s.fileRef 0).file 0).refcnt = _
      rw [State.fileRef, setFile_file]
      rw [href, BitVec.ofNat_add (n + 2) 1]
      rfl

/-- The count has 32 bits: a file with `2 ^ 32` holders has the count 0. -/
theorem fdget_wraps : ∃ s : State Unit, Reaches (fun _ _ => True) (boot fun _ => true) s ∧
    s.holders.count 0 = 2 ^ 32 ∧ (s.file 0).refcnt.toNat = 0 := by
  obtain ⟨s, hreach, -, -, hcount, href⟩ := reaches_fdgets (n := 2 ^ 32 - 2) (by decide)
  refine ⟨s, hreach, hcount, ?_⟩
  rw [href]
  rfl

end State
end FileRefs
end Doppio
