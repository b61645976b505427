import Doppio.Sys.ScmRights

/-! Every file that a `sys_sendmsg` queues is delivered once and in order, and every reference to
a file is held at one place. -/
namespace Doppio
open Function Option
open List Multiset
namespace ScmRights
open RefCount (Counts)

theorem quotient_toNat (len : BitVec 64) : (((len - sizeofCmsghdr) / 4).setWidth 32).toNat =
    (2 ^ 64 - 16 + len.toNat) % 2 ^ 64 / 4 % 2 ^ 32 := by
  rfl

theorem fdsCnt_toNat {len : BitVec 64} (h : carried len ≤ 64) :
    (fdsCnt len).toNat = carried len := by
  unfold carried at h ⊢
  rw [fdsCnt, BitVec.toInt_eq_toNat_cond, quotient_toNat]
  split_ifs <;> omega

variable {controllen : BitVec 64}

theorem maxToPass_toNat (h : sizeofCmsghdr ≤ controllen)
    (hfit : fit controllen < 2 ^ 31) : (maxToPass controllen).toNat = min (fit controllen) 1 := by
  have hle : 16 ≤ controllen.toNat := h
  unfold fit at hfit ⊢
  have hn : (((controllen - sizeofCmsghdr) / 4).setWidth 32).toInt =
      ((controllen.toNat - 16) / 4 : ℕ) := by
    rw [BitVec.toInt_eq_toNat_cond, quotient_toNat]
    split_ifs <;> omega
  simp only [maxToPass]
  split_ifs <;> omega

variable {r : Passed}

theorem pushFiles_spec (h : r.Valid) (fs : List FPtr)
    (hroom : r.count + fs.length < unixSocketMaxPassedFds) :
    ∃ r' : Passed, pushFiles r fs = (r', fs, []) ∧ r'.Valid ∧ r'.contents = r.contents ++ fs := by
  induction fs generalizing r with
  | nil => exact ⟨r, rfl, h, (append_nil _).symm⟩
  | cons f fs ih =>
    rw [length_cons] at hroom
    have hfull : ¬r.full := by
      rw [GapRing.full_iff h]
      omega
    have hcount := GapRing.count_store h hfull f
    obtain ⟨r', hpush, hvalid, hcontents⟩ := ih (h.store f) (by omega)
    rw [GapRing.contents_store h hfull, append_assoc] at hcontents
    exact ⟨r', by rw [pushFiles, if_neg hfull, hpush], hvalid, hcontents⟩

theorem popFiles_spec (h : r.Valid) (k : ℕ) :
    ∃ fs r', popFiles r k = (fs, r') ∧ r'.Valid ∧ r.contents = fs ++ r'.contents ∧
      fs.length = min k r.count := by
  induction k generalizing r with
  | zero => exact ⟨[], r, rfl, h, rfl, (Nat.zero_min _).symm⟩
  | succ k ih =>
    rw [popFiles]
    split_ifs with heq
    · have hzero := (GapRing.count_eq_zero_iff h).mpr heq
      exact ⟨[], r, rfl, h, rfl, by simp [hzero]⟩
    · have hne : r.count ≠ 0 := fun h0 => heq ((GapRing.count_eq_zero_iff h).mp h0)
      have hcount := GapRing.count_advance h (k := 1) (by omega)
      obtain ⟨fs, r', hpop, hvalid, hcontents, hlength⟩ := ih (h.advance 1)
      refine ⟨r.buf r.head :: fs, r', by rw [hpop], hvalid, ?_, ?_⟩
      · rw [GapRing.contents_eq_cons h heq, hcontents]
        rfl
      · rw [length_cons, hlength]
        omega

theorem popFiles_all (h : r.Valid) :
    (popFiles r unixSocketMaxPassedFds).1 = r.contents := by
  obtain ⟨fs, r', hpop, -, hcontents, hlength⟩ := popFiles_spec h unixSocketMaxPassedFds
  have hlt := GapRing.count_lt h
  have hnil : r'.contents = [] := by
    have hlen := congrArg List.length hcontents
    rw [length_append, hlength, GapRing.length_contents] at hlen
    exact eq_nil_of_length_eq_zero (by omega)
  rw [hpop, hcontents, hnil, append_nil]

namespace State
variable {P : Type} {s s' : State P} {i : ℕ} {c : Call P} {d : Side} {f : FPtr} {p : P}

section Counted
variable {M : Multiset FPtr}

theorem counts_fileCloses {fs : List FPtr} (h : Counts s.refs (fs + M))
    (hs : s.fileCloses fs = some s') : Counts s'.refs M ∧ s' = { s with refs := s'.refs } := by
  obtain ⟨refs, hrefs, rfl⟩ := map_eq_some_iff.mp hs
  exact ⟨h.of_decrAll hrefs, rfl⟩

variable [Fintype P] [DecidableEq P]

theorem counts_installFiles {files : List FPtr} {r : State P × List FPtr}
    (h : Counts s.refs (files + (RefCount.table s.fds + M)))
    (hr : installFiles p s files = some r) :
    Counts r.1.refs (RefCount.table r.1.fds + M) ∧
      r.1 = { s with fds := r.1.fds, refs := r.1.refs } := by
  induction files generalizing s r with
  | nil =>
    cases hr
    exact ⟨by simpa using h, rfl⟩
  | cons f fs ih =>
    have hsplit : ((f :: fs : List FPtr) : Multiset FPtr) = ([f] : List FPtr) + (fs : Multiset FPtr) :=
      rfl
    rw [hsplit, add_assoc] at h
    rw [installFiles] at hr
    cases hslot : (List.finRange maxFiles).find? fun i => s.fds (p, i) = none with
    | none =>
      rw [hslot] at hr
      obtain ⟨t, ht, hr⟩ := bind_eq_some_iff.mp hr
      obtain ⟨hc, hframe⟩ := counts_fileCloses h ht
      rw [hframe] at hr
      obtain ⟨hcounts, heq⟩ := ih hc hr
      exact ⟨hcounts, heq⟩
    | some j =>
      rw [hslot] at hr
      obtain ⟨t, ht, hr⟩ := bind_eq_some_iff.mp hr
      obtain ⟨u, hu, rfl⟩ := map_eq_some_iff.mp hr
      have hfree : s.fds (p, j) = none := by simpa using List.find?_some hslot
      -- the new descriptor has a reference of its own
      have hinc : Counts (s.fileRefs [f]).refs ([f] + (fs + (RefCount.table
          (update s.fds (p, j) (some f)) + M) : Multiset FPtr)) := by
        have hmore := h.incrAll [f]
        rw [RefCount.table_insert hfree, cons_add, add_cons]
        exact hmore
      obtain ⟨hc, hframe⟩ := counts_fileCloses
        (s := { s.fileRefs [f] with fds := update s.fds (p, j) (some f) }) hinc ht
      rw [hframe] at hu
      obtain ⟨hcounts, heq⟩ := ih hc hu
      exact ⟨hcounts, heq⟩

end Counted

theorem installFiles_single [DecidableEq P] {files installed : List FPtr} (hlen : files.length ≤ 1)
    (hfree : files ≠ [] → ∃ j, s.fds (p, j) = none)
    (hr : installFiles p s files = some (s', installed)) : installed = files := by
  match files with
  | [] =>
    cases hr
    rfl
  | [f] =>
    obtain ⟨j, hj⟩ := hfree (cons_ne_nil _ _)
    obtain ⟨k, hk⟩ : ∃ k, (List.finRange maxFiles).find? (fun i => s.fds (p, i) = none) = some k := by
      rw [← isSome_iff_exists, List.find?_isSome]
      exact ⟨j, mem_finRange j, by simpa using hj⟩
    rw [installFiles, hk] at hr
    obtain ⟨t, -, hr⟩ := bind_eq_some_iff.mp hr
    obtain ⟨u, hu, heq⟩ := map_eq_some_iff.mp hr
    cases hu
    cases heq
    rfl

section
variable (s : State P)

theorem sock_setSock_self (d : Side) (g : Sock → Sock) :
    (s.setSock d g).sock d = g (s.sock d) := update_self ..

theorem sock_setSock_not (d : Side) (g : Sock → Sock) :
    (s.setSock d g).sock (!d) = s.sock (!d) := by
  cases d <;> rfl

def ring (d : Side) : Multiset FPtr :=
  if (s.sock d).live then (s.sock d).passed.contents else 0

theorem ring_setSock_not (d : Side) (g : Sock → Sock) :
    (s.setSock d g).ring (!d) = s.ring (!d) := by
  rw [ring, ring, sock_setSock_not]

def callFiles : Multiset FPtr := (s.calls.flatMap Call.files : List FPtr)

end

section Held
variable [Fintype P]

variable (s : State P)

/-- The references to a file from anywhere but the ring of one end. -/
def others (d : Side) : Multiset FPtr :=
  RefCount.table s.fds + s.ring (!d) + s.callFiles

def held : Multiset FPtr :=
  RefCount.table s.fds + (s.ring false + s.ring true) + s.callFiles

theorem held_eq (d : Side) : s.held = s.ring d + s.others d := by
  cases d <;> simp only [held, others, Bool.not_false, Bool.not_true] <;> abel

end Held

theorem callFiles_eq (hi : s.calls[i]? = some c) : s.callFiles =
    c.files + ({ s with calls := s.calls.eraseIdx i } : State P).callFiles := by
  obtain ⟨hlt, rfl⟩ := List.getElem?_eq_some_iff.mp hi
  exact Multiset.coe_eq_coe.mpr ((getElem_cons_eraseIdx_perm hlt).symm.flatMap_right _)

theorem callFiles_setCall (hi : s.calls[i]? = some c) (c' : Call P) : (s.setCall i c').callFiles =
    c'.files + ({ s with calls := s.calls.eraseIdx i } : State P).callFiles := by
  obtain ⟨hlt, -⟩ := List.getElem?_eq_some_iff.mp hi
  exact Multiset.coe_eq_coe.mpr ((set_perm_cons_eraseIdx hlt c').flatMap_right _)

end State

/-- What a call has checked before its next section. -/
def Call.Fits {P : Type} : Call P → Prop
  | .push _ _ named files _ => files = named
  | .extract _ _ _ controllen => sizeofCmsghdr ≤ controllen
  | _ => True

namespace State
variable {P : Type} [Fintype P] {s s' : State P} {i : ℕ} {c c' : Call P} {d : Side} {f : FPtr}
  {p : P}

/-- What was queued for an end has been delivered or is in its ring. -/
structure Orderly (k : Sock) (sent : List Sent) (received : List Received)
    (delivered : List FPtr) : Prop where
  valid : k.live = true → k.passed.Valid
  queue : k.live = true → delivered ++ k.passed.contents = sent.flatMap Sent.queued
  delivered : delivered <+: sent.flatMap Sent.queued
  sent : ∀ e ∈ sent, e.queued = e.named
  received : ∀ e ∈ received, e.installed = min e.pending e.fit

structure Sound (s : State P) : Prop where
  refs : Counts s.refs s.held
  side : ∀ d, Orderly (s.sock d) (s.sent d) (s.received d) (s.delivered d)
  calls : ∀ c ∈ s.calls, c.Fits

theorem Sound.endCall (h : Sound s) (hi : s.calls[i]? = some c) (hf : c.files = [f])
    (hs : s.endCall i f = some s') : Sound s' := by
  have hcounts : Counts s.refs ([f] + ({ s with calls := s.calls.eraseIdx i } : State P).held) := by
    have hrefs := h.refs
    rw [held, callFiles_eq hi, hf, add_left_comm] at hrefs
    exact hrefs
  obtain ⟨hc, hframe⟩ := counts_fileCloses (s := { s with calls := s.calls.eraseIdx i }) hcounts hs
  rw [hframe]
  exact ⟨hc, h.side, fun c hc => h.calls c (eraseIdx_subset hc)⟩

theorem Sound.fits_set (h : Sound s) (hfits : c'.Fits) : ∀ c ∈ s.calls.set i c', c.Fits := by
  intro c hc
  rcases mem_or_eq_of_mem_set hc with hc | rfl
  · exact h.calls c hc
  · exact hfits

theorem Sound.setCall (h : Sound s) (hi : s.calls[i]? = some c) (hfiles : c'.files = c.files)
    (hfits : c'.Fits) : Sound (s.setCall i c') := by
  refine ⟨?_, h.side, h.fits_set hfits⟩
  have hrefs := h.refs
  rw [held, callFiles_eq hi, ← hfiles, ← callFiles_setCall hi] at hrefs
  exact hrefs

theorem others_setSock (s : State P) (d : Side) (g : Sock → Sock) :
    (s.setSock d g).others d = s.others d := by
  rw [others, ring_setSock_not]
  rfl

theorem forall_side (d : Side) {q : Side → Prop} (hd : q d) (hnot : q (!d)) (e : Side) : q e := by
  cases d <;> cases e
  · exact hd
  · exact hnot
  · exact hnot
  · exact hd

section
variable (h : Sound s)
include h

theorem Sound.setBuf (g : SocketStream.SockBuf → SocketStream.SockBuf) :
    Sound (s.setSock d fun k => { k with buf := g k.buf }) := by
  set s' := s.setSock d fun k => { k with buf := g k.buf }
  have hself : s'.sock d = { s.sock d with buf := g (s.sock d).buf } := sock_setSock_self ..
  have hnot : s'.sock (!d) = s.sock (!d) := sock_setSock_not ..
  have hring : s'.ring d = s.ring d := by rw [ring, ring, hself]
  refine ⟨?_, forall_side d ?_ ?_, h.calls⟩
  · have hrefs := h.refs
    rw [held_eq s d] at hrefs
    rw [held_eq s' d, hring, others_setSock]
    exact hrefs
  · rw [hself]
    exact { h.side d with }
  · rw [hnot]
    exact h.side _

theorem Sound.push {named files : List FPtr} {iov : List SendVec}
    (hi : s.calls[i]? = some (.push f d named files iov))
    (hroom : (s.sock d).passed.count + files.length < unixSocketMaxPassedFds)
    (hs : s.push i f d named files iov = some s') : Sound s' := by
  rw [State.push] at hs
  split_ifs at hs with hlive
  have hside := h.side d
  obtain ⟨r, hpush, hr, hcontents⟩ := pushFiles_spec (hside.valid hlive) files hroom
  have hnamed : files = named := h.calls _ (mem_of_getElem? hi)
  rw [hpush] at hs
  cases hs
  set t := s.setSock d fun k => { k with passed := r }
  have hself : t.sock d = { s.sock d with passed := r } := sock_setSock_self ..
  have hnot : t.sock (!d) = s.sock (!d) := sock_setSock_not ..
  refine ⟨?_, forall_side d ?_ ?_, h.fits_set trivial⟩
  · have hring : t.ring d = s.ring d + files := by
      rw [ring, ring, hself, if_pos hlive, if_pos hlive, hcontents]
      rfl
    have hheld : s.held = t.ring d +
        (RefCount.table s.fds + t.ring (!d) + (s.setCall i (.write f d iov)).callFiles) := by
      have hfiles : ((f :: files : List FPtr) : Multiset FPtr) =
        ([f] : List FPtr) + (files : Multiset FPtr) := rfl
      rw [held_eq s d, others, callFiles_eq hi, callFiles_setCall hi, hring, ring_setSock_not,
        Call.files, Call.files, hfiles]
      abel
    have hrefs := h.refs
    rw [hheld] at hrefs
    rw [held_eq _ d]
    exact hrefs
  · show Orderly (t.sock d) (update s.sent d _ d) (s.received d) (s.delivered d)
    rw [hself, update_self]
    have hqueue : s.delivered d ++ r.contents =
        (s.sent d ++ [Sent.mk named files]).flatMap Sent.queued := by
      rw [hcontents, ← append_assoc, hside.queue hlive]
      simp
    refine ⟨fun _ => hr, fun _ => hqueue, ?_, fun e he => ?_, hside.received⟩
    · rw [← hqueue]
      exact prefix_append _ _
    · rcases List.mem_append.mp he with he | he
      · exact hside.sent e he
      · rw [List.mem_singleton.mp he]
        exact hnamed
  · show Orderly (t.sock (!d)) (update s.sent d _ (!d)) (s.received (!d)) (s.delivered (!d))
    rw [hnot, update_of_ne (Bool.not_ne_self d)]
    exact h.side _

theorem Sound.extract [DecidableEq P] (hi : s.calls[i]? = some (.extract p f d controllen))
    (hone : (s.sock d).passed.count ≤ 1 ∨ fit controllen ≤ 1) (hfit : fit controllen < 2 ^ 31)
    (hfree : 0 < (s.sock d).passed.count → 0 < fit controllen → ∃ j, s.fds (p, j) = none)
    (hs : s.extract i p f d controllen = some s') : Sound s' := by
  rw [State.extract] at hs
  split_ifs at hs with hlive
  have hside := h.side d
  have hmax := maxToPass_toNat (h.calls _ (mem_of_getElem? hi)) hfit
  obtain ⟨files, r, hpop, hr, hcontents, hlength⟩ :=
    popFiles_spec (hside.valid hlive) (maxToPass controllen).toNat
  rw [hpop] at hs
  dsimp only at hs
  obtain ⟨⟨t, installed⟩, ht, hend⟩ := bind_eq_some_iff.mp hs
  have hinstalled : installed = files := by
    refine installFiles_single (by omega) (fun hne => ?_) ht
    have hpos := List.length_pos_iff.mpr hne
    exact hfree (by omega) (by omega)
  subst hinstalled
  set u := s.setSock d fun k => { k with passed := r }
  have hself : u.sock d = { s.sock d with passed := r } := sock_setSock_self ..
  have hnot : u.sock (!d) = s.sock (!d) := sock_setSock_not ..
  have hcounts : Counts u.refs (installed + (RefCount.table u.fds +
      (u.ring false + u.ring true + u.callFiles))) := by
    have hring : s.ring d = installed + u.ring d := by
      rw [ring, ring, hself, if_pos hlive, if_pos hlive, hcontents]
      rfl
    have hrefs := h.refs
    rw [held_eq s d, hring, add_assoc, ← others_setSock, ← held_eq, held, add_assoc] at hrefs
    exact hrefs
  obtain ⟨hc, hframe⟩ := counts_installFiles hcounts ht
  refine Sound.endCall (c := .extract p f d controllen) ⟨?_, forall_side d ?_ ?_, ?_⟩ ?_ rfl hend
  · rw [hframe] at hc ⊢
    rw [held, add_assoc]
    exact hc
  · rw [hframe]
    show Orderly (u.sock d) (s.sent d) (update s.received d _ d)
      (update s.delivered d _ d)
    rw [hself, update_self, update_self]
    have hqueue : s.delivered d ++ installed ++ r.contents = (s.sent d).flatMap Sent.queued := by
      rw [← hside.queue hlive, hcontents, append_assoc]
    refine ⟨fun _ => hr, fun _ => hqueue, ?_, hside.sent, fun e he => ?_⟩
    · rw [← hqueue]
      exact prefix_append _ _
    · rcases List.mem_append.mp he with he | he
      · exact hside.received e he
      · rw [List.mem_singleton.mp he]
        dsimp only
        omega
  · rw [hframe]
    show Orderly (u.sock (!d)) (s.sent (!d)) (update s.received d _ (!d))
      (update s.delivered d _ (!d))
    rw [hnot, update_of_ne (Bool.not_ne_self d), update_of_ne (Bool.not_ne_self d)]
    exact h.side _
  · rw [hframe]
    exact h.calls
  · rw [hframe]
    exact hi

theorem Sound.sockClose (hlive : (s.sock d).live = true)
    (hs : s.sockClose d = some s') : Sound s' := by
  have hside := h.side d
  rw [State.sockClose, popFiles_all (hside.valid hlive)] at hs
  set u := s.setSock d fun k => { k with live := false, connected := false }
  set t := u.setSock (!d) fun k => { k with connected := false }
  have htself : t.sock d = { s.sock d with live := false, connected := false } := by
    have hu : u.sock d = { s.sock d with live := false, connected := false } :=
      sock_setSock_self ..
    have ht := sock_setSock_not u (!d) fun k => { k with connected := false }
    rw [Bool.not_not] at ht
    exact ht.trans hu
  have htnot : t.sock (!d) = { s.sock (!d) with connected := false } := by
    rw [sock_setSock_self, sock_setSock_not]
  have hcounts : Counts t.refs ((s.sock d).passed.contents + t.held) := by
    have hrefs := h.refs
    have hring : s.ring d = (s.sock d).passed.contents := if_pos hlive
    have hzero : t.ring d = 0 := by
      rw [ring, htself]
      rfl
    have hother : t.ring (!d) = s.ring (!d) := by rw [ring, ring, htnot]
    rw [held_eq s d, hring] at hrefs
    rw [held_eq t d, hzero, others, hother, zero_add]
    exact hrefs
  obtain ⟨hc, hframe⟩ := counts_fileCloses hcounts hs
  rw [hframe]
  refine ⟨hc, forall_side d ?_ ?_, h.calls⟩
  · rw [htself]
    exact { hside with valid := by simp, queue := by simp }
  · rw [htnot]
    exact { h.side (!d) with }

theorem Sound.addCall (hfits : c.Fits) :
    Sound ((s.fileRefs c.files).addCall c) := by
  have hfiles : ((s.fileRefs c.files).addCall c).callFiles = s.callFiles + c.files := by
    show ((s.calls ++ [c]).flatMap Call.files : Multiset FPtr) = _
    rw [flatMap_append, flatMap_singleton]
    rfl
  refine ⟨?_, h.side, fun k hk => ?_⟩
  · have hrefs := h.refs.incrAll c.files
    rw [add_comm, held, add_assoc, ← hfiles] at hrefs
    exact hrefs
  · rcases List.mem_append.mp hk with hk | hk
    · exact h.calls k hk
    · rw [List.mem_singleton.mp hk]
      exact hfits

theorem Sound.getPut (hs : (s.fileRefs [f]).fileCloses [f] = some s') :
    Sound s' := by
  obtain ⟨hc, hframe⟩ := counts_fileCloses (s := s.fileRefs [f]) (h.refs.incrAll [f]) hs
  rw [hframe]
  exact ⟨hc, h.side, h.calls⟩

theorem Sound.startSend {m : SendMsg} (hfew : ∀ r ∈ rights m, carried r.1.len ≤ 64)
    (hs : (s.fileRefs [f]).startSend p f d m = some s') : Sound s' := by
  rw [State.startSend] at hs
  split_ifs at hs with hlive hconn
  · exact h.getPut hs
  · split at hs
    · cases hs
      exact h.addCall (c := .write f (!d) m.iov) trivial
    next k c hk =>
      cases hs
      have hcount : min (fdsCnt k.len).toNat 64 = carried k.len := by
        have hle : carried k.len ≤ 64 := hfew (k, c) hk
        rw [fdsCnt_toNat hle, Nat.min_eq_left hle]
      exact h.addCall (c := .push f (!d) _ _ m.iov) (by rw [Call.Fits, hcount])

theorem Sound.write {iov : List SendVec}
    (hi : s.calls[i]? = some (.write f d iov)) (hs : s.write i f d iov = some s') : Sound s' := by
  match iov with
  | [] =>
    rw [State.write] at hs
    split_ifs at hs
    exact h.endCall hi rfl hs
  | .fault :: _ => exact h.endCall hi rfl hs
  | .bytes [] :: rest =>
    cases hs
    exact h.setCall hi rfl trivial
  | .bytes (none :: _) :: _ => exact h.endCall hi rfl hs
  | .bytes (some b :: bs) :: rest =>
    rw [State.write] at hs
    split_ifs at hs with hlive hconn hfull
    · cases hs
      exact h
    · cases hs
      exact (h.setBuf fun buf => buf.store b).setCall hi rfl trivial
    · exact h.endCall hi rfl hs

theorem Sound.lock {m : RecvMsg} (hi : s.calls[i]? = some (.lock p f d m))
    (hs : s.lock i p f d m = some s') : Sound s' := by
  rw [State.lock] at hs
  split_ifs at hs
  · cases hs
    exact h.setCall hi rfl trivial
  · exact h.endCall hi rfl hs
  · cases hs
    exact h.setCall hi rfl trivial

theorem Sound.wait {m : RecvMsg} {signal : Bool}
    (hi : s.calls[i]? = some (.wait p f d m)) (hs : s.wait i p f d m signal = some s') :
    Sound s' := by
  rw [State.wait] at hs
  split_ifs at hs
  · exact h.endCall hi rfl hs
  · cases hs
    exact h
  · cases hs
    exact h.setCall hi rfl trivial

variable {control : Option (BitVec 64)}

theorem Sound.iov {vecs : List RecvVec} {total : ℕ}
    (hi : s.calls[i]? = some (.iov p f d control vecs total))
    (hs : s.iov i p f d control total vecs = some s') : Sound s' := by
  match vecs with
  | [] =>
    cases control with
    | none => exact h.endCall hi rfl hs
    | some controllen =>
      rw [State.iov, State.endIov] at hs
      split_ifs at hs with hlen
      · cases hs
        exact h.setCall hi rfl hlen.2
      · exact h.endCall hi rfl hs
  | .fault :: _ => exact h.endCall hi rfl hs
  | .vec len nomem bad :: rest =>
    rw [State.iov] at hs
    dsimp only at hs
    split_ifs at hs
    · cases hs
      exact h.setCall hi rfl trivial
    · cases hs
      exact h.setCall hi rfl trivial
    · exact h.endCall hi rfl hs
    · cases hs
      exact h.setCall hi rfl trivial

theorem Sound.advance {rest : List RecvVec} {total n len : ℕ}
    (hi : s.calls[i]? = some (.advance p f d control rest total n len))
    (hs : s.advance i p f d control rest total n len = some s') : Sound s' := by
  rw [State.advance] at hs
  by_cases hlive : (s.sock d).live = true
  · rw [if_neg (not_not.mpr hlive)] at hs
    cases hs
    exact (h.setBuf fun buf => buf.advance n).setCall hi rfl trivial
  · rw [if_pos hlive] at hs
    cases hs

theorem Sound.close [DecidableEq P] {j : Fin maxFiles} (hj : s.fds (p, j) = some f)
    (hs : { s with fds := update s.fds (p, j) none }.fileCloses [f] = some s') :
    Sound s' := by
  have hcounts : Counts s.refs
      ([f] + ({ s with fds := update s.fds (p, j) none } : State P).held) := by
    have hrefs := h.refs
    rw [held, ← RefCount.table_erase hj, cons_add, cons_add] at hrefs
    exact hrefs
  obtain ⟨hc, hframe⟩ := counts_fileCloses
    (s := { s with fds := update s.fds (p, j) none }) hcounts hs
  rw [hframe]
  exact ⟨hc, h.side, h.calls⟩

end

end State

/-- The receiving socket is not freed, its ring has room for the files, and a receiver that could
take more than one descriptor finds at most one and has a free slot. -/
def Call.Roomy {P : Type} (s : State P) : Call P → Prop
  | .push _ peer _ files _ => (s.sock peer).live = true ∧
      (s.sock peer).passed.count + files.length < unixSocketMaxPassedFds
  | .write _ peer _ => (s.sock peer).live = true
  | .extract p _ d controllen =>
    ((s.sock d).passed.count ≤ 1 ∨ fit controllen ≤ 1) ∧ fit controllen < 2 ^ 31 ∧
      (0 < (s.sock d).passed.count → 0 < fit controllen → ∃ j, s.fds (p, j) = none)
  | _ => True

namespace State
variable {P : Type} {s s' s₀ : State P}

/-- At most 64 descriptors at a time, and every call has room. -/
def Roomy (s : State P) : Event P → Prop
  | .sendmsg _ _ (some m) => ∀ r ∈ rights m, carried r.1.len ≤ 64
  | .resume i _ => ∀ c ∈ s.calls[i]?, c.Roomy s
  | _ => True

instance (s : State P) : DecidablePred (Call.Roomy s)
  | .push _ _ _ _ _ => instDecidableAnd
  | .write _ _ _ => inferInstanceAs (Decidable (_ = true))
  | .extract _ _ _ _ => instDecidableAnd
  | .lock _ _ _ _ => isTrue trivial
  | .wait _ _ _ _ => isTrue trivial
  | .iov _ _ _ _ _ _ => isTrue trivial
  | .advance _ _ _ _ _ _ _ _ => isTrue trivial

instance (s : State P) : DecidablePred s.Roomy
  | .sendmsg _ _ (some m) => inferInstanceAs (Decidable (∀ r ∈ rights m, carried r.1.len ≤ 64))
  | .sendmsg _ _ none => isTrue trivial
  | .recvmsg _ _ _ => isTrue trivial
  | .resume i _ => inferInstanceAs (Decidable (∀ c ∈ s.calls[i]?, c.Roomy s))
  | .close _ _ => isTrue trivial
  | .sockClose _ => isTrue trivial

variable [Fintype P] [DecidableEq P] {e : Event P}

theorem Sound.resume {i : ℕ} {signal : Bool} {c : Call P} (h : Sound s)
    (hi : s.calls[i]? = some c) (hok : c.Roomy s) (hs : s.resume i signal c = some s') :
    Sound s' := by
  cases c with
  | push f peer named files iov => exact h.push hi hok.2 hs
  | write f peer iov => exact h.write hi hs
  | lock p f d m => exact h.lock hi hs
  | wait p f d m => exact h.wait hi hs
  | iov p f d control vecs total => exact h.iov hi hs
  | advance p f d control rest total n len => exact h.advance hi hs
  | extract p f d controllen => exact h.extract hi hok.1 hok.2.1 hok.2.2 hs

theorem Sound.of_step (h : Sound s) (hok : s.Roomy e) (hs : s.step e = some s') : Sound s' := by
  cases e with
  | sendmsg p fd msg =>
    rw [step] at hs
    split at hs
    · cases hs
      exact h
    · split at hs
      · exact h.startSend hok hs
      · exact h.getPut hs
  | recvmsg p fd msg =>
    rw [step] at hs
    split at hs
    · cases hs
      exact h
    next f hf =>
      split at hs
      next d m hd =>
        cases hs
        exact h.addCall (c := .lock p f d m) trivial
      · exact h.getPut hs
  | resume i signal =>
    rw [step] at hs
    split at hs
    · cases hs
    next c hi => exact h.resume hi (hok c hi) hs
  | close p fd =>
    rw [step] at hs
    split at hs
    · cases hs
      exact h
    · split at hs
      · cases hs
        exact h
      next hj => exact h.close hj hs
  | sockClose d =>
    rw [step] at hs
    split_ifs at hs with hlive
    exact h.sockClose hlive.1 hs

/-- A connected pair over which nothing has been sent. -/
structure Start (s : State P) : Prop where
  refs : Counts s.refs (RefCount.table s.fds)
  sock : ∀ d, (s.sock d).live = true ∧ (s.sock d).connected = true ∧ (s.sock d).passed.Valid ∧
    (s.sock d).passed.head = (s.sock d).passed.tail
  calls : s.calls = []
  history : ∀ d, s.sent d = [] ∧ s.received d = [] ∧ s.delivered d = []

omit [DecidableEq P] in
theorem Start.sound (h : Start s) : Sound s := by
  have hnil (d : Side) : (s.sock d).passed.contents = [] := by
    obtain ⟨-, -, hvalid, heq⟩ := h.sock d
    rw [← length_eq_zero_iff, GapRing.length_contents, GapRing.count_eq_zero_iff hvalid]
    exact heq
  have hring (d : Side) : s.ring d = 0 := by
    rw [ring, hnil]
    exact ite_self _
  refine ⟨?_, fun d => ?_, ?_⟩
  · simpa [held, hring, callFiles, h.calls] using h.refs
  · obtain ⟨hsent, hreceived, hdelivered⟩ := h.history d
    rw [hsent, hreceived, hdelivered]
    exact ⟨fun _ => (h.sock d).2.2.1, fun _ => by rw [hnil]; rfl, prefix_rfl, by simp, by simp⟩
  · rw [h.calls]
    simp

/-- While the calls have room, the files are delivered once and in order, every receive installs
what there is and fits, and every reference to a file is held at one place. -/
theorem runs_deliver (h₀ : Start s₀)
    (h : Run.Reaches (fun s e s' => step s e = some s') Roomy s₀ s) :
    (∀ d, Orderly (s.sock d) (s.sent d) (s.received d) (s.delivered d)) ∧
      ∀ f, s.refs f = s.held.count f := by
  have hsound : Sound s := h.invariant (fun _ _ _ hI hok hs => hI.of_step hok hs) h₀.sound
  exact ⟨hsound.side, hsound.refs⟩

/-- Two processes with one end each; the first has the files 10, 11 and 12 open. -/
def twoProcesses : State Bool where
  fds := [((false, 0), 0), ((false, 1), 10), ((false, 2), 11), ((false, 3), 12),
    ((true, 0), 1)].foldl (fun t x => update t x.1 (some x.2)) fun _ => none
  refs f := [0, 10, 11, 12, 1].count f
  sockFile d := if d then 1 else 0
  sock _ := ⟨true, true, ⟨fun _ => 0, 0, 0⟩, ⟨fun _ => 0, 0, 0⟩⟩
  calls := []
  sent _ := []
  received _ := []
  delivered _ := []

theorem twoProcesses_start : twoProcesses.Start where
  refs f := by
    have htable : RefCount.table twoProcesses.fds = ([1, 12, 11, 10, 0] : List FPtr) := by
      simp only [twoProcesses, List.foldl_cons, foldl_nil]
      rw [RefCount.table_insert (by decide), RefCount.table_insert (by decide),
        RefCount.table_insert (by decide), RefCount.table_insert (by decide),
        RefCount.table_insert (by decide), RefCount.table_empty]
      rfl
    rw [htable, coe_count]
    exact List.Perm.count_eq (by decide) f
  sock _ := ⟨rfl, rfl, ⟨NeZero.pos _, NeZero.pos _⟩, rfl⟩
  calls := rfl
  history d := ⟨rfl, rfl, rfl⟩

/-- The first process sends `n` of its files with one byte, and returns. -/
def sendFds (n : ℕ) : List (Event Bool) :=
  [.sendmsg false 0 (some ⟨some ⟨16 + 4 * n, some ⟨16 + 4 * n, 1, 1⟩,
    fun i => some (i + 1)⟩, [.bytes [some 77]]⟩),
    .resume 0 false, .resume 0 false, .resume 0 false, .resume 0 false]

def recvFds (n : ℕ) : List (Event Bool) :=
  [.recvmsg true 0 (some ⟨some (16 + 4 * n), [.vec 1 false false]⟩),
    .resume 0 false, .resume 0 false, .resume 0 false, .resume 0 false, .resume 0 false]

theorem runs_deliver_two : ∃ s : State Bool, s.delivered true = [10, 10] ∧
    s.fds (true, 2) = some 10 ∧ ∀ f, s.refs f = s.held.count f := by
  obtain ⟨s, hs, heq⟩ : ∃ s ∈ (sendFds 1 ++ sendFds 1 ++ recvFds 1 ++ recvFds 1).foldlM
      (fun s e => if Roomy s e then step s e else none) twoProcesses, s.delivered true = [10, 10] ∧
      s.fds (true, 2) = some 10 := by
    decide +kernel
  exact ⟨s, heq.1, heq.2, (runs_deliver twoProcesses_start (Run.reaches_of_guarded hs)).2⟩

theorem recvmsg_installs_one : ∃ s, (sendFds 3 ++ recvFds 3).foldlM step twoProcesses = some s ∧
    s.calls = [] ∧ s.received true = [⟨3, 3, 1⟩] := by
  obtain ⟨s, hs, heq⟩ : ∃ s ∈ (sendFds 3 ++ recvFds 3).foldlM step twoProcesses, s.calls = [] ∧
      s.received true = [⟨3, 3, 1⟩] := by
    decide +kernel
  exact ⟨s, hs, heq⟩

end State
end ScmRights
end Doppio
