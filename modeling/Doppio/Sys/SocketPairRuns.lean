import Doppio.Sys.SocketPairs

/-! What the sections of the socket calls keep, and what holds along every run of them. -/
namespace Doppio
open List Option

namespace SocketPeers

namespace Net

variable {n : Net} {s t c l a : SPtr} {i : ℕ} {n' : Net}

theorem Sound.bindTable (h : Sound n) (hi : n.calls[i]? = some (.bind s))
    (hn' : n.bindTable s = some n') : Sound (n'.dropCall i) := by
  have hmem : Call.bind s ∈ n.calls := mem_of_getElem? hi
  have hdrop : Sound (n.dropCall i) := h.dropCall hi (by simp)
  rw [Net.bindTable] at hn'
  cases hscan : n.scanPath (n.sock s).path (finRange maxBoundSockets) with
  | none =>
    rw [hscan] at hn'
    cases hn'
  | some found =>
    rw [hscan] at hn'
    cases found with
    | some j =>
      cases hn'
      exact hdrop
    | none =>
      cases hslot : n.findBound (· = none) with
      | none =>
        rw [hslot] at hn'
        cases hn'
        exact hdrop
      | some j =>
        rw [hslot] at hn'
        cases hn'
        refine hdrop.enter (h.busy_open ⟨_, hmem, rfl⟩) (h.binding s hmem) (fun hx => ?_)
          fun k hk => (h.bound k s hk).2.2 hmem
        exact ne_some_of_mem_eraseIdx h.bindOnce hi rfl hx rfl

theorem Sound.enqueue {v : SPtr} (h : Sound n)
    (hi : n.calls[i]? = some (.enqueue s v)) (hn' : n.enqueue i s v = some n')
    (hok : (n.sock v).state = .listening → (n.sock s).state ≠ .connected ∧
      (n.sock s).state ≠ .disconnected ∧ ¬n.Pending s) : Sound n' := by
  have hopen : n.Open s := h.busy_open ⟨_, mem_of_getElem? hi, rfl⟩
  have hdrop : Sound (n.dropCall i) := h.dropCall hi (by simp)
  rw [Net.enqueue] at hn'
  split_ifs at hn' with hl hlisten
  · cases hn'
    exact hdrop
  · cases hn'
    simp only [not_or, not_not] at hlisten
    obtain ⟨hconn, hdisc, hpend⟩ := hok hlisten.1
    have hpeer : (n.sock s).peer = none := by
      by_contra hp
      exact hconn ((h.connected s hopen.1).mpr hp)
    have hadd : Sound ((n.dropCall i).addCall (.wait s)) :=
      hdrop.addCall hopen (by simp [Call.client]) (by simp [Call.binder])
    refine hadd.store hl hlisten.2 (by simp [Net.addCall]) hpeer hdisc fun hp => hpend ?_
    rcases hp with hp | ⟨l, hl⟩
    · exact .inl hp
    · simp only [Net.addCall, mem_append, mem_singleton, reduceCtorEq, or_false] at hl
      exact .inr ⟨l, eraseIdx_subset hl⟩

theorem Sound.wait (h : Sound n) (hi : n.calls[i]? = some (.wait s)) : Sound (n.wait i s) := by
  rw [Net.wait]
  split_ifs with hst
  · refine h.dropCall hi fun t ht hp => ?_
    cases ht
    obtain ⟨hw, hnone, hdisc⟩ := h.pending s hp
    have hlive : (n.sock s).live = true := h.busy _ hw
    exact (h.connected s hlive).mp (hst.resolve_right hdisc) hnone
  · exact h

theorem pending_dropCall (hp : (n.dropCall i).Pending c) : n.Pending c :=
  hp.imp_right fun ⟨l, hl⟩ => ⟨l, eraseIdx_subset hl⟩

section
variable (h : Sound n)
include h

theorem Sound.live_of_pending (hc : n.Pending c) : (n.sock c).live = true :=
  (h.busy_open (h.pending_busy hc)).1

theorem Sound.link {mem : Option SPtr}
    (hi : n.calls[i]? = some (.link l c)) (hn' : n.link i c mem = some n') : Sound n' := by
  have hmem : Call.link l c ∈ n.calls := mem_of_getElem? hi
  have hdrop : Sound (n.dropCall i) := h.dropCall hi (by simp)
  cases mem with
  | none =>
    cases hn'
    exact hdrop
  | some a =>
    rw [Net.link] at hn'
    split_ifs at hn' with hdead
    cases hn'
    simp only [not_or, not_not] at hdead
    obtain ⟨ha, hc⟩ := hdead
    have hpend : n.Pending c := .inr ⟨l, hmem⟩
    have hopen := h.busy_open (h.pending_busy hpend)
    have hac : a ≠ c := by
      rintro rfl
      exact ha hc
    have hold : ((n.dropCall i).sockAlloc a).sock c = n.sock c :=
      sock_setSock_of_ne _ _ hac.symm
    have hnew : ((n.dropCall i).sockAlloc a).sock a = UnixSocket.new := sock_setSock_self ..
    refine (hdrop.sockAlloc ha).linkPair hac ⟨by rw [hnew]; rfl, h.closing_dead ha⟩
      ⟨by rw [hold]; exact hc, hopen.2⟩ (by rw [hnew]; rfl) ?_
      (fun hp => ha (h.live_of_pending (pending_dropCall (pending_sockAlloc hp)))) fun hp => ?_
    · rw [hold]
      exact (h.pending c hpend).2.1
    -- the client was taken from its backlog, by this call alone
    rcases pending_sockAlloc hp with ⟨m, hq⟩ | ⟨m, hm⟩
    · exact h.taken m l c hq hmem
    · exact ne_some_of_mem_eraseIdx h.takenOnce hi rfl hm rfl

theorem Sound.accept (hs : n.Open s) (hne : (n.sock s).backlog.head ≠ (n.sock s).backlog.tail) :
    Sound ((n.setSock s fun k => { k with backlog := k.backlog.advance 1 }).addCall
      (.link s ((n.sock s).backlog.buf (n.sock s).backlog.head))) := by
  have hcons := GapRing.contents_eq_cons (h.valid s hs.1) hne
  set c := (n.sock s).backlog.buf (n.sock s).backlog.head
  have hq : n.Queued s c := ⟨hs.1, by simp [hcons]⟩
  have hchange : Sound (n.setSock s fun k => { k with backlog := k.backlog.advance 1 }) := by
    refine h.change rfl rfl Iff.rfl id id (fun hv => hv.advance 1) fun _ => ?_
    rw [hcons]
    exact sublist_cons_self ..
  set f : UnixSocket → UnixSocket := fun k => { k with backlog := k.backlog.advance 1 }
  have hlive := proj_setSock (n := n) (s := s) (f := f) UnixSocket.live rfl
  have hpeer := proj_setSock (n := n) (s := s) (f := f) UnixSocket.peer rfl
  have hstate := proj_setSock (n := n) (s := s) (f := f) UnixSocket.state rfl
  refine hchange.addCall ⟨(hlive s).trans hs.1, hs.2⟩ (fun x hx => ?_) (by simp [Call.binder])
  obtain rfl : c = x := some.inj hx
  rw [hpeer, hstate]
  refine ⟨?_, h.pending c (.inl ⟨s, hq⟩)⟩
  rintro (⟨m, hm⟩ | ⟨m, hm⟩)
  · have hml := (hlive m).symm.trans hm.1
    have hmem := hm.2
    rw [sock_setSock] at hmem
    split_ifs at hmem with hms
    · have hnodup := h.once s hs.1
      rw [hcons] at hnodup
      exact (nodup_cons.mp hnodup).1 hmem
    · exact hms (h.apart m s c ⟨hml, hmem⟩ hq)
  · exact h.taken s m c hq hm

theorem Sound.findServer {path : List (BitVec 8)} (hs : n.Open s)
    (hn' : n.findServer s path = some n') : Sound n' := by
  rw [Net.findServer] at hn'
  split at hn'
  · cases hn'
  · cases hn'
    exact h
  · split at hn'
    · cases hn'
      exact h
    · cases hn'
      exact h.addCall hs (by simp [Call.client]) (by simp [Call.binder])

theorem Sound.socketpair {b : SPtr} (ha : (n.sock a).live ≠ true)
    (hb : (n.sock b).live ≠ true) (hab : a ≠ b) :
    Sound (((n.sockAlloc a).sockAlloc b).linkPair a b) := by
  have hb' : ((n.sockAlloc a).sock b).live ≠ true := by
    rw [Net.sockAlloc, sock_setSock_of_ne n _ hab.symm]
    exact hb
  have hnewb : ((n.sockAlloc a).sockAlloc b).sock b = UnixSocket.new := sock_setSock_self ..
  have hnewa : ((n.sockAlloc a).sockAlloc b).sock a = UnixSocket.new := by
    rw [Net.sockAlloc, sock_setSock_of_ne _ _ hab, Net.sockAlloc, sock_setSock_self]
  have hnot {t : SPtr} (ht : (n.sock t).live ≠ true) :
      ¬((n.sockAlloc a).sockAlloc b).Pending t := fun hp =>
    ht (h.live_of_pending (pending_sockAlloc (pending_sockAlloc hp)))
  refine ((h.sockAlloc ha).sockAlloc hb').linkPair hab ⟨?_, h.closing_dead ha⟩
    ⟨?_, h.closing_dead hb⟩ ?_ ?_ (hnot ha) (hnot hb)
  · rw [hnewa]
    rfl
  · rw [hnewb]
    rfl
  · rw [hnewa]
    rfl
  · rw [hnewb]
    rfl

theorem Sound.bind (hs : n.Open s) (hst : (n.sock s).state = .closed) (path : List (BitVec 8)) :
    Sound ((n.setSock s fun k => { k with path := path, state := .bound }).addCall (.bind s)) := by
  have hchange : Sound (n.setSock s fun k => { k with path := path, state := .bound }) :=
    h.change rfl rfl (by simp [hst]) (by simp) (by simp) id fun _ => Sublist.refl _
  refine hchange.addCall ⟨?_, hs.2⟩ (by simp [Call.client]) fun x hx => ?_
  · show ((n.setSock s _).sock s).live = true
    rw [sock_setSock_self]
    exact hs.1
  · obtain rfl : s = x := some.inj hx
    refine ⟨by rw [sock_setSock_self]; simp, fun i hi => ?_, fun hc => h.binding s hc hst⟩
    exact (h.bound i s hi).2.1 hst

theorem Sound.listen (hst : (n.sock s).state = .bound) :
    Sound (n.setSock s fun k =>
      { k with state := .listening, backlog := { k.backlog with head := 0, tail := 0 } }) := by
  have hpos : 0 < unixSocketMaxBacklog := by decide
  refine h.change rfl rfl (by simp [hst]) (by simp) (by simp) (fun _ => ⟨hpos, hpos⟩) fun _ => ?_
  rw [contents_reset]
  exact nil_sublist _

theorem Sound.sockFree (hs : n.closing s = some .free)
    (hn' : n.sockFree s = some n') : Sound (n'.setClosing s none) := by
  rw [Net.sockFree, (h.closing s (by simp [hs])).2.1] at hn'
  cases hn'
  exact h.free hs

theorem Sound.resumeClose (hn' : n.resumeClose s = some n') :
    Sound n' := by
  rw [Net.resumeClose] at hn'
  split at hn'
  · cases hn'
  next p hs =>
    obtain ⟨m, hm, rfl⟩ := map_eq_some_iff.mp hn'
    exact h.closePeer hs hm
  next hs =>
    cases hn'
    obtain ⟨hsound, hno⟩ := h.closeTable s
    obtain ⟨hsock, hclosing⟩ := closeTable_sock n s
    refine hsound.setClosing (by simp [hclosing, hs]) (fun t ht hp => ?_) fun _ => hno
    rw [hsock] at ht hp
    cases h.eq_of_peer_closing hs ht hp
  next hs =>
    obtain ⟨m, hm, rfl⟩ := map_eq_some_iff.mp hn'
    exact h.sockFree hs hm

end

end Net

/-- A client about to enter a listener's backlog is not connected and waits nowhere else, and no
section locks a freed socket. -/
def Unlinked (n : Net) : Event → Prop
  | .resume i _ => ∀ s v, n.calls[i]? = some (.enqueue s v) → (n.sock v).live = true ∧
      ((n.sock v).state = .listening → (n.sock s).state ≠ .connected ∧
        (n.sock s).state ≠ .disconnected ∧ ¬n.Pending s)
  | .resumeClose s => ∀ t, n.closing s = some (.unlink (some t)) → (n.sock t).live = true
  | _ => True

variable {n n' : Net} {e : Event}

theorem Net.Sound.resume {i : ℕ} {mem : Option SPtr} (h : n.Sound)
    (hok : Unlinked n (.resume i mem)) (hn' : step n (.resume i mem) = some n') : n'.Sound := by
  rw [step] at hn'
  split at hn'
  · cases hn'
  next s hi =>
    obtain ⟨m, hm, rfl⟩ := map_eq_some_iff.mp hn'
    exact h.bindTable hi hm
  next s v hi => exact h.enqueue hi hn' (hok s v hi).2
  next s hi =>
    cases hn'
    exact h.wait hi
  next l c hi => exact h.link hi hn'

theorem Net.Sound.of_step (h : n.Sound) (hok : Unlinked n e) (hn' : step n e = some n') :
    n'.Sound := by
  cases e with
  | socket a =>
    rw [step] at hn'
    split_ifs at hn' with ha
    cases hn'
    exact h.sockAlloc ha
  | socketpair a b =>
    rw [step] at hn'
    split_ifs at hn' with hab
    cases hn'
    simp only [not_or] at hab
    exact h.socketpair hab.1 hab.2.1 hab.2.2
  | bind s path =>
    rw [step] at hn'
    split_ifs at hn' with hs hst
    · cases hn'
      exact h
    · cases hn'
      exact h.bind hs (not_not.mp hst) _
  | listen s =>
    rw [step] at hn'
    split_ifs at hn' with hs hst
    · cases hn'
      exact h
    · cases hn'
      exact h.listen (not_not.mp hst)
  | connect s path =>
    rw [step] at hn'
    split_ifs at hn' with hs
    exact h.findServer hs hn'
  | accept s =>
    rw [step] at hn'
    dsimp only at hn'
    split_ifs at hn' with hs hst
    · cases hn'
      exact h
    · cases hn'
      exact h.accept hs fun heq => hst (.inr heq)
  | close s =>
    rw [step] at hn'
    split_ifs at hn' with hs
    cases hn'
    simp only [not_or, not_not] at hs
    exact h.close hs.1 hs.2
  | resume i mem => exact h.resume hok hn'
  | resumeClose s => exact h.resumeClose hn'

theorem Net.Sound.init : Net.init.Sound := by
  have hdead (s : SPtr) : (Net.init.sock s).live ≠ true := by simp [Net.init]
  have hnone (c : SPtr) : ¬Net.init.Pending c := by
    rintro (⟨l, hl⟩ | ⟨l, hl⟩)
    · exact hdead l hl.1
    · cases hl
  refine ⟨fun s hs => absurd hs (hdead s), fun s t hs => absurd hs (hdead s),
    fun s hs => absurd rfl hs, by simp [Net.init], fun c hc => absurd hc (hnone c),
    fun l hl => absurd hl (hdead l), fun l hl => absurd hl (hdead l),
    fun l l' c hq => absurd hq.1 (hdead l), by simp [Net.init], by simp [Net.init],
    by simp [Net.init], by simp [Net.init], by simp [Net.init], by simp [Net.init],
    by simp [Net.init]⟩

/-- The call exists and has its file open; memory handed out is not in use. -/
def Possible (n : Net) : Event → Prop
  | .socket a => (n.sock a).live ≠ true
  | .socketpair a b => (n.sock a).live ≠ true ∧ (n.sock b).live ≠ true ∧ a ≠ b
  | .bind s _ => n.Open s
  | .listen s => n.Open s
  | .connect s _ => n.Open s
  | .accept s => n.Open s
  | .close s => n.Open s ∧ ¬n.Busy s
  | .resume i mem => n.calls[i]? ≠ none ∧ ∀ a, mem = some a → (n.sock a).live ≠ true
  | .resumeClose s => n.closing s ≠ none

section
variable (h : n.Sound)
include h

theorem Net.Sound.scanPath (path : List (BitVec 8))
    (slots : List (Fin maxBoundSockets)) : ∃ r, n.scanPath path slots = some r := by
  induction slots with
  | nil => exact ⟨none, rfl⟩
  | cons j rest ih =>
    rw [Net.scanPath]
    split
    · exact ih
    next v hv =>
      rw [if_neg (not_not.mpr (h.bound j v hv).1)]
      split_ifs
      · exact ⟨some j, rfl⟩
      · exact ih

theorem Net.Sound.bindTable_isSome (s : SPtr) : ∃ n', n.bindTable s = some n' := by
  obtain ⟨r, hr⟩ := h.scanPath (n.sock s).path (finRange maxBoundSockets)
  rw [Net.bindTable, hr]
  cases r with
  | some j => exact ⟨n, rfl⟩
  | none =>
    dsimp only
    split
    · exact ⟨n, rfl⟩
    · exact ⟨_, rfl⟩

theorem Net.Sound.findServer_isSome (s : SPtr) (path : List (BitVec 8)) :
    ∃ n', n.findServer s path = some n' := by
  obtain ⟨r, hr⟩ := h.scanPath path (finRange maxBoundSockets)
  rw [Net.findServer, hr]
  cases r with
  | none => exact ⟨n, rfl⟩
  | some j =>
    dsimp only
    split
    · exact ⟨n, rfl⟩
    · exact ⟨_, rfl⟩

theorem Net.Sound.resume_isSome {i : ℕ} {mem : Option SPtr}
    (hp : Possible n (.resume i mem)) (hok : Unlinked n (.resume i mem)) :
    ∃ n', step n (.resume i mem) = some n' := by
  obtain ⟨k, hi⟩ := ne_none_iff_exists'.mp hp.1
  rw [step, hi]
  cases k with
  | bind s =>
    obtain ⟨m, hm⟩ := h.bindTable_isSome s
    exact ⟨m.dropCall i, by simp [hm]⟩
  | enqueue s v =>
    dsimp only
    rw [Net.enqueue, if_neg (not_not.mpr (hok s v hi).1)]
    split_ifs
    · exact ⟨_, rfl⟩
    · exact ⟨_, rfl⟩
  | wait s => exact ⟨_, rfl⟩
  | link l c =>
    have hlive := h.live_of_pending (.inr ⟨l, mem_of_getElem? hi⟩ : n.Pending c)
    cases mem with
    | none => exact ⟨_, rfl⟩
    | some a =>
      dsimp only
      rw [Net.link, if_neg (not_or.mpr ⟨hp.2 a rfl, not_not.mpr hlive⟩)]
      exact ⟨_, rfl⟩

theorem Net.Sound.resumeClose_isSome {s : SPtr}
    (hp : Possible n (.resumeClose s)) (hok : Unlinked n (.resumeClose s)) :
    ∃ n', step n (.resumeClose s) = some n' := by
  obtain ⟨stage, hs⟩ := ne_none_iff_exists'.mp hp
  rw [step, Net.resumeClose, hs]
  cases stage with
  | unlink p =>
    cases p with
    | none => exact ⟨_, rfl⟩
    | some t =>
      dsimp only
      rw [Net.closePeer, if_neg (not_not.mpr (hok t hs))]
      split_ifs
      · exact ⟨_, rfl⟩
      · exact ⟨_, rfl⟩
  | unbind => exact ⟨_, rfl⟩
  | free =>
    rw [Net.sockFree, (h.closing s hp).2.1]
    exact ⟨_, rfl⟩

theorem Net.Sound.step_isSome (hp : Possible n e) (hok : Unlinked n e) :
    ∃ n', step n e = some n' := by
  cases e with
  | socket a =>
    rw [step, if_neg hp]
    exact ⟨_, rfl⟩
  | socketpair a b =>
    rw [step, if_neg (not_or.mpr ⟨hp.1, not_or.mpr hp.2⟩)]
    exact ⟨_, rfl⟩
  | bind s path =>
    have hs : n.Open s := hp
    rw [step]
    split_ifs
    · exact ⟨_, rfl⟩
    · exact ⟨_, rfl⟩
  | listen s =>
    have hs : n.Open s := hp
    rw [step]
    split_ifs
    · exact ⟨_, rfl⟩
    · exact ⟨_, rfl⟩
  | connect s path =>
    have hs : n.Open s := hp
    rw [step, if_neg (not_not.mpr hs)]
    exact h.findServer_isSome s path
  | accept s =>
    have hs : n.Open s := hp
    rw [step]
    dsimp only
    split_ifs
    · exact ⟨_, rfl⟩
    · exact ⟨_, rfl⟩
  | close s =>
    rw [step, if_neg (not_or.mpr ⟨not_not.mpr hp.1, hp.2⟩)]
    exact ⟨_, rfl⟩
  | resume i mem => exact h.resume_isSome hp hok
  | resumeClose s => exact h.resumeClose_isSome hp hok

end

/-- One has taken the other out of its `peer` in `sock_close` and not yet had its lock. -/
def Net.Parting (n : Net) (s t : SPtr) : Prop :=
  n.closing s = some (.unlink (some t)) ∨ n.closing t = some (.unlink (some s))

/-- Sockets are connected in pairs, and every pointer leads to a socket. -/
structure Net.Paired (n : Net) : Prop where
  symmetric : ∀ s t, (n.sock s).live = true → (n.sock t).live = true → ¬n.Parting s t →
    ((n.sock s).peer = some t ↔ (n.sock t).peer = some s)
  peer : ∀ s t, (n.sock s).live = true → (n.sock s).peer = some t → (n.sock t).live = true
  backlog : ∀ s, (n.sock s).live = true → ∀ c ∈ (n.sock s).backlog.contents, (n.sock c).live = true
  bound : ∀ i s, n.boundSockets i = some s → (n.sock s).live = true
  connected : ∀ s, (n.sock s).live = true → ((n.sock s).state = .connected ↔ (n.sock s).peer ≠ none)

theorem Net.Sound.paired (h : n.Sound) : n.Paired := by
  refine ⟨fun s t hs ht hpart => ⟨fun hp => ?_, fun hp => ?_⟩, fun s t hs hp => (h.peer s t hs hp).1,
    fun s hs c hc => h.live_of_pending (.inl ⟨s, hs, hc⟩), fun i s hi => (h.bound i s hi).1,
    h.connected⟩
  · exact (h.peer s t hs hp).2.resolve_right fun hc => hpart (.inr hc)
  · exact (h.peer t s ht hp).2.resolve_right fun hc => hpart (.inl hc)

/-- While `sys_connect` queues only unconnected clients, once each, and no section locks a freed
socket, the sockets are connected in pairs, if not parting, and no pointer leads to a freed one. -/
theorem runs_paired (h : Run.Reaches (fun n e n' => step n e = some n') Unlinked Net.init n) :
    n.Paired ∧ ∀ e, Possible n e → Unlinked n e → ∃ n', step n e = some n' := by
  have hsound : n.Sound := h.invariant (fun n e n' hI hok hn' => hI.of_step hok hn') Net.Sound.init
  exact ⟨hsound.paired, fun e hp hok => hsound.step_isSome hp hok⟩

/-- No other `sys_connect` waits with the same client. -/
def serial (n : Net) : Event → Bool
  | .resume i _ =>
    match n.calls[i]? with
    | some (.enqueue s v) => (n.sock v).live && (n.sock s).state != .connected &&
        (n.sock s).state != .disconnected && !n.calls.contains (.wait s)
    | _ => true
  | .resumeClose s =>
    match n.closing s with
    | some (.unlink (some t)) => (n.sock t).live
    | _ => true
  | _ => true

theorem Net.Sound.unlinked_of_serial (h : n.Sound) (hserial : serial n e = true) :
    Unlinked n e := by
  cases e with
  | resume i mem =>
    intro s v hi
    rw [serial, hi] at hserial
    simp only [Bool.and_eq_true, bne_iff_ne, Bool.not_eq_true', contains_eq_mem,
      decide_eq_false_iff_not] at hserial
    obtain ⟨⟨⟨hv, hconn⟩, hdisc⟩, hwait⟩ := hserial
    exact ⟨hv, fun _ => ⟨hconn, hdisc, fun hp => hwait (h.pending s hp).1⟩⟩
  | resumeClose s =>
    intro t ht
    rw [serial, ht] at hserial
    exact hserial
  | _ => trivial

theorem reaches_of_serial
    (h : Run.Reaches (fun n e n' => step n e = some n') (fun n e => serial n e = true) Net.init n) :
    Run.Reaches (fun n e n' => step n e = some n') Unlinked Net.init n := by
  refine h.invariant (fun m e m' hm hserial hm' => ?_) (Run.Reaches.refl _)
  have hsound : m.Sound := hm.invariant (fun _ _ _ hI hok hn' => hI.of_step hok hn') Net.Sound.init
  exact hm.trans (Run.Reaches.single e (hsound.unlinked_of_serial hserial) hm')

def connectAndClose : List Event :=
  [.socket 0, .bind 0 [1], .resume 0 none, .listen 0, .socket 1, .connect 1 [1], .resume 0 none,
    .accept 0, .resume 1 (some 2), .resume 0 none, .close 1, .resumeClose 1]

theorem runs_paired_connectAndClose : ∃ n : Net, n.Paired ∧ (n.sock 1).state = .disconnected ∧
    (n.sock 2).state = .disconnected ∧ n.calls = [] := by
  obtain ⟨n, hn, heq⟩ : ∃ n ∈ connectAndClose.foldlM
      (fun n e => if serial n e = true then step n e else none) Net.init,
      (n.sock 1).state = .disconnected ∧ (n.sock 2).state = .disconnected ∧ n.calls = [] := by
    decide +kernel
  exact ⟨n, (runs_paired (reaches_of_serial (Run.reaches_of_guarded hn))).1, heq⟩

/-- A connected socket connects to a server; its old peer is left behind. -/
def connectTwice : List Event :=
  [.socket 0, .bind 0 [1], .resume 0 none, .listen 0, .socketpair 1 2, .connect 1 [1],
    .resume 0 none, .accept 0, .resume 1 (some 3), .resume 0 none]

theorem connected_client_leaves_peer : ∃ n, connectTwice.foldlM step Net.init = some n ∧
    n.calls = [] ∧ (n.closing 1 = none ∧ n.closing 2 = none) ∧ (n.sock 1).peer = some 3 ∧
    (n.sock 2).peer = some 1 ∧ ¬n.Paired := by
  obtain ⟨n, hn, hcalls, hclosing, hl1, hl2, hp1, hp2⟩ : ∃ n ∈ connectTwice.foldlM step Net.init,
      n.calls = [] ∧ (n.closing 1 = none ∧ n.closing 2 = none) ∧ (n.sock 1).live = true ∧
      (n.sock 2).live = true ∧ (n.sock 1).peer = some 3 ∧ (n.sock 2).peer = some 1 := by
    decide +kernel
  refine ⟨n, hn, hcalls, hclosing, hp1, hp2, fun hpaired => ?_⟩
  have hpart : ¬n.Parting 2 1 := by
    simp [Net.Parting, hclosing]
  have hback := (hpaired.symmetric 2 1 hl2 hl1 hpart).mp hp2
  simp [hp1] at hback

end SocketPeers
end Doppio
