import Doppio.Sys.SocketPeers

/-! Connected sockets are pairs, and no pointer to a socket outlives it. -/
namespace Doppio
open Function Option
open List
namespace SocketPeers

def Call.client : Call → Option SPtr
  | .link _ c => some c
  | _ => none

/-- The socket about to be entered into the table. -/
def Call.binder : Call → Option SPtr
  | .bind s => some s
  | _ => none

variable {k : Call}

theorem Call.client_eq {x : SPtr} : k.client = some x ↔ ∃ l, k = .link l x := by
  cases k <;> simp [Call.client]

theorem Call.binder_eq {x : SPtr} : k.binder = some x ↔ k = .bind x := by
  cases k <;> simp [Call.binder]

theorem nodup_filterMap_concat {α β : Type*} {f : α → Option β} {l : List α} {k : α}
    (h : (l.filterMap f).Nodup) (hk : ∀ x, f k = some x → ∀ y ∈ l, f y ≠ some x) :
    ((l ++ [k]).filterMap f).Nodup := by
  rw [filterMap_append]
  cases hf : f k with
  | none => simpa [hf] using h
  | some x =>
    rw [filterMap_cons_some hf]
    refine nodup_append.mpr ⟨h, pairwise_singleton _ x, fun y hy z hz => ?_⟩
    rw [mem_singleton.mp hz]
    rintro rfl
    obtain ⟨w, hw, hwy⟩ := mem_filterMap.mp hy
    exact hk y hf w hw hwy

theorem ne_some_of_mem_eraseIdx {α β : Type*} {f : α → Option β} {l : List α} {k y : α} {x : β}
    {i : ℕ} (h : (l.filterMap f).Nodup) (hi : l[i]? = some k) (hk : f k = some x)
    (hy : y ∈ l.eraseIdx i) : f y ≠ some x := by
  obtain ⟨hlt, rfl⟩ := List.getElem?_eq_some_iff.mp hi
  have hperm := (getElem_cons_eraseIdx_perm hlt).filterMap f
  rw [filterMap_cons_some hk] at hperm
  have hnodup := hperm.nodup_iff.mpr h
  intro hyx
  exact (nodup_cons.mp hnodup).1 (mem_filterMap.mpr ⟨y, hy, hyx⟩)

namespace Net

variable {n : Net} {s t c l a : SPtr} {i : ℕ}

theorem sock_setSock (n : Net) (s t : SPtr) (f : UnixSocket → UnixSocket) :
    (n.setSock s f).sock t = if t = s then f (n.sock s) else n.sock t :=
  update_apply n.sock s (f (n.sock s)) t

@[simp] theorem sock_setSock_self (n : Net) (s : SPtr) (f : UnixSocket → UnixSocket) :
    (n.setSock s f).sock s = f (n.sock s) := by simp [sock_setSock]

theorem sock_setSock_of_ne (n : Net) (f : UnixSocket → UnixSocket) (h : t ≠ s) :
    (n.setSock s f).sock t = n.sock t := by simp [sock_setSock, h]

variable {f : UnixSocket → UnixSocket}

theorem proj_setSock {α : Type*} (g : UnixSocket → α)
    (hg : g (f (n.sock s)) = g (n.sock s)) (t : SPtr) :
    g ((n.setSock s f).sock t) = g (n.sock t) := by
  rw [sock_setSock]
  split_ifs with ht
  · rw [ht, hg]
  · rfl

section
variable (n : Net)

@[simp] theorem sock_setClosing (s : SPtr) (stage : Option CloseStage) :
    (n.setClosing s stage).sock = n.sock := rfl

@[simp] theorem closing_setClosing_self (s : SPtr) (stage : Option CloseStage) :
    (n.setClosing s stage).closing s = stage := update_self ..

theorem closing_setClosing_of_ne (stage : Option CloseStage) (h : t ≠ s) :
    (n.setClosing s stage).closing t = n.closing t := update_of_ne h ..

def Queued (l c : SPtr) : Prop :=
  (n.sock l).live = true ∧ c ∈ (n.sock l).backlog.contents

/-- The client waits in a backlog, or was taken from one. -/
def Pending (c : SPtr) : Prop :=
  (∃ l, n.Queued l c) ∨ ∃ l, Call.link l c ∈ n.calls

/-- A peer points back, unless it is between the sections of `sock_close` that take the pair apart.
A waiting client is in `sys_connect`, whose reference keeps it, and waits at one place. -/
structure Sound : Prop where
  connected : ∀ s, (n.sock s).live = true → ((n.sock s).state = .connected ↔ (n.sock s).peer ≠ none)
  peer : ∀ s t, (n.sock s).live = true → (n.sock s).peer = some t → (n.sock t).live = true ∧
    ((n.sock t).peer = some s ∨ n.closing t = some (.unlink (some s)))
  closing : ∀ s, n.closing s ≠ none → (n.sock s).live = true ∧ (n.sock s).peer = none ∧ ¬n.Busy s
  busy : ∀ c ∈ n.calls, (n.sock c.sock).live = true
  pending : ∀ c, n.Pending c →
    Call.wait c ∈ n.calls ∧ (n.sock c).peer = none ∧ (n.sock c).state ≠ .disconnected
  valid : ∀ l, (n.sock l).live = true → (n.sock l).backlog.Valid
  once : ∀ l, (n.sock l).live = true → (n.sock l).backlog.contents.Nodup
  apart : ∀ l l' c, n.Queued l c → n.Queued l' c → l = l'
  taken : ∀ l l' c, n.Queued l c → Call.link l' c ∉ n.calls
  takenOnce : (n.calls.filterMap Call.client).Nodup
  bound : ∀ i s, n.boundSockets i = some s →
    (n.sock s).live = true ∧ (n.sock s).state ≠ .closed ∧ Call.bind s ∉ n.calls
  boundOnce : ∀ i j s, n.boundSockets i = some s → n.boundSockets j = some s → i = j
  binding : ∀ s, Call.bind s ∈ n.calls → (n.sock s).state ≠ .closed
  bindOnce : (n.calls.filterMap Call.binder).Nodup
  freed : ∀ s, n.closing s = some .free → ∀ i, n.boundSockets i ≠ some s

end

theorem contents_reset (b : GapRing unixSocketMaxBacklog SPtr) :
    ({ b with head := 0, tail := 0 } : GapRing unixSocketMaxBacklog SPtr).contents = [] := by
  rw [← length_eq_zero_iff, GapRing.length_contents]
  simp [GapRing.count]

theorem queued_sockAlloc (hq : (n.sockAlloc a).Queued l c) : n.Queued l c := by
  rw [Queued, sockAlloc, sock_setSock] at hq
  split_ifs at hq with hl
  · cases hq.2
  · exact hq

theorem pending_sockAlloc (hp : (n.sockAlloc a).Pending c) : n.Pending c :=
  hp.imp_left fun ⟨l, hl⟩ => ⟨l, queued_sockAlloc hl⟩

section
variable (h : Sound n)
include h

theorem Sound.dropCall (hi : n.calls[i]? = some k)
    (hwait : ∀ s, k = .wait s → ¬n.Pending s) : Sound (n.dropCall i) := by
  have hsub : (n.dropCall i).calls.Sublist n.calls := eraseIdx_sublist _ _
  have hmem {x : Call} (hx : x ∈ (n.dropCall i).calls) : x ∈ n.calls := hsub.subset hx
  have hpending {c : SPtr} (hc : (n.dropCall i).Pending c) : n.Pending c :=
    hc.imp_right fun ⟨l, hl⟩ => ⟨l, hmem hl⟩
  refine ⟨h.connected, h.peer, fun s hs => ?_, fun x hx => h.busy x (hmem hx), fun c hc => ?_,
    h.valid, h.once, h.apart, fun l l' c hq hx => h.taken l l' c hq (hmem hx),
    h.takenOnce.sublist (hsub.filterMap _), fun j s hj => ?_, h.boundOnce,
    fun s hs => h.binding s (hmem hs), h.bindOnce.sublist (hsub.filterMap _), h.freed⟩
  · obtain ⟨hl, hp, hb⟩ := h.closing s hs
    exact ⟨hl, hp, fun ⟨x, hx, hxs⟩ => hb ⟨x, hmem hx, hxs⟩⟩
  · obtain ⟨hw, hp⟩ := h.pending c (hpending hc)
    refine ⟨?_, hp⟩
    obtain ⟨j, hj⟩ := getElem?_of_mem hw
    refine mem_eraseIdx_iff_getElem?.mpr ⟨j, ?_, hj⟩
    rintro rfl
    rw [hi, some.injEq] at hj
    exact hwait c hj (hpending hc)
  · obtain ⟨hl, hst, hb⟩ := h.bound j s hj
    exact ⟨hl, hst, fun hx => hb (hmem hx)⟩

theorem Sound.addCall (hopen : n.Open k.sock)
    (hclient : ∀ x, k.client = some x → ¬n.Pending x ∧ Call.wait x ∈ n.calls ∧
      (n.sock x).peer = none ∧ (n.sock x).state ≠ .disconnected)
    (hbinder : ∀ x, k.binder = some x → (n.sock x).state ≠ .closed ∧
      (∀ i, n.boundSockets i ≠ some x) ∧ Call.bind x ∉ n.calls) : Sound (n.addCall k) := by
  have hmem {x : Call} : x ∈ (n.addCall k).calls ↔ x ∈ n.calls ∨ x = k := by
    simp [Net.addCall]
  refine ⟨h.connected, h.peer, fun s hs => ?_, fun x hx => ?_, fun c hc => ?_, h.valid, h.once,
    h.apart, fun l l' c hq hx => ?_, ?_, fun j s hj => ?_, h.boundOnce, fun s hs => ?_, ?_, h.freed⟩
  · obtain ⟨hl, hp, hb⟩ := h.closing s hs
    refine ⟨hl, hp, fun ⟨x, hx, hxs⟩ => ?_⟩
    rcases hmem.mp hx with hx | rfl
    · exact hb ⟨x, hx, hxs⟩
    · exact hs (hxs ▸ hopen.2)
  · rcases hmem.mp hx with hx | rfl
    · exact h.busy x hx
    · exact hopen.1
  · have hold (hp : n.Pending c) : Call.wait c ∈ (n.addCall k).calls ∧ (n.sock c).peer = none ∧
        (n.sock c).state ≠ .disconnected :=
      (h.pending c hp).imp_left fun hw => hmem.mpr (.inl hw)
    rcases hc with hq | ⟨l, hl⟩
    · exact hold (.inl hq)
    · rcases hmem.mp hl with hl | hl
      · exact hold (.inr ⟨l, hl⟩)
      · exact ((hclient c (by rw [← hl]; rfl)).2).imp_left fun hw => hmem.mpr (.inl hw)
  · rcases hmem.mp hx with hx | hx
    · exact h.taken l l' c hq hx
    · exact (hclient c (by rw [← hx]; rfl)).1 (.inl ⟨l, hq⟩)
  · refine nodup_filterMap_concat h.takenOnce fun x hx y hy hyx => ?_
    obtain ⟨l, rfl⟩ := Call.client_eq.mp hyx
    exact (hclient x hx).1 (.inr ⟨l, hy⟩)
  · obtain ⟨hl, hst, hb⟩ := h.bound j s hj
    refine ⟨hl, hst, fun hx => ?_⟩
    rcases hmem.mp hx with hx | hx
    · exact hb hx
    · exact (hbinder s (by rw [← hx]; rfl)).2.1 j hj
  · rcases hmem.mp hs with hs | hs
    · exact h.binding s hs
    · exact (hbinder s (by rw [← hs]; rfl)).1
  · refine nodup_filterMap_concat h.bindOnce fun x hx y hy hyx => ?_
    rw [Call.binder_eq.mp hyx] at hy
    exact (hbinder x hx).2.2 hy

/-- A change of sockets that leaves the calls and the table, and adds nothing to a backlog. -/
theorem Sound.rewire {n' : Net} (hcalls : n'.calls = n.calls)
    (htable : n'.boundSockets = n.boundSockets) (hlive : ∀ t, (n'.sock t).live = (n.sock t).live)
    (hclosed : ∀ t, (n'.sock t).state = .closed → (n.sock t).state = .closed)
    (hvalid : ∀ t, (n.sock t).backlog.Valid → (n'.sock t).backlog.Valid)
    (hsub : ∀ t, (n.sock t).backlog.Valid →
      (n'.sock t).backlog.contents.Sublist (n.sock t).backlog.contents)
    (hconnected : ∀ t, (n.sock t).live = true →
      ((n'.sock t).state = .connected ↔ (n'.sock t).peer ≠ none))
    (hpeer : ∀ t u, (n.sock t).live = true → (n'.sock t).peer = some u → (n.sock u).live = true ∧
      ((n'.sock u).peer = some t ∨ n'.closing u = some (.unlink (some t))))
    (hclosing : ∀ t, n'.closing t ≠ none →
      (n.sock t).live = true ∧ (n'.sock t).peer = none ∧ ¬n.Busy t)
    (hpending : ∀ c, n.Pending c → (n'.sock c).peer = none ∧ (n'.sock c).state ≠ .disconnected)
    (hfreed : ∀ t, n'.closing t = some .free → n.closing t = some .free) : Sound n' := by
  have hqueued {l c : SPtr} (hq : n'.Queued l c) : n.Queued l c := by
    have hl : (n.sock l).live = true := hlive l ▸ hq.1
    exact ⟨hl, (hsub l (h.valid l hl)).subset hq.2⟩
  have hpend {c : SPtr} (hc : n'.Pending c) : n.Pending c :=
    hc.imp (fun ⟨l, hl⟩ => ⟨l, hqueued hl⟩) fun ⟨l, hl⟩ => ⟨l, hcalls ▸ hl⟩
  have hbusy (t : SPtr) : n'.Busy t ↔ n.Busy t := by rw [Busy, Busy, hcalls]
  refine ⟨fun t ht => hconnected t (hlive t ▸ ht), fun t u ht hu => ?_, fun t ht => ?_,
    fun k hk => ?_, fun c hc => ?_, fun l hl => hvalid l (h.valid l (hlive l ▸ hl)), fun l hl => ?_,
    fun l l' c hq hq' => h.apart l l' c (hqueued hq) (hqueued hq'), fun l l' c hq hx => ?_, ?_,
    fun j t hj => ?_, ?_, fun t ht hst => ?_, ?_, fun t ht => ?_⟩
  · rw [hlive] at ht ⊢
    exact hpeer t u ht hu
  · rw [hlive, hbusy]
    exact hclosing t ht
  · rw [hcalls] at hk
    rw [hlive]
    exact h.busy k hk
  · rw [hcalls]
    exact ⟨(h.pending c (hpend hc)).1, hpending c (hpend hc)⟩
  · rw [hlive] at hl
    exact (h.once l hl).sublist (hsub l (h.valid l hl))
  · exact h.taken l l' c (hqueued hq) (hcalls ▸ hx)
  · rw [hcalls]
    exact h.takenOnce
  · rw [htable] at hj
    obtain ⟨hl, hst, hb⟩ := h.bound j t hj
    exact ⟨(hlive t).trans hl, fun hc => hst (hclosed t hc), hcalls ▸ hb⟩
  · rw [htable]
    exact h.boundOnce
  · exact h.binding t (hcalls ▸ ht) (hclosed t hst)
  · rw [hcalls]
    exact h.bindOnce
  · rw [htable]
    exact h.freed t (hfreed t ht)

theorem Sound.change
    (hlive : (f (n.sock s)).live = (n.sock s).live) (hpeer : (f (n.sock s)).peer = (n.sock s).peer)
    (hconn : (f (n.sock s)).state = .connected ↔ (n.sock s).state = .connected)
    (hdisc : (f (n.sock s)).state = .disconnected → (n.sock s).state = .disconnected)
    (hclosed : (f (n.sock s)).state = .closed → (n.sock s).state = .closed)
    (hvalid : (n.sock s).backlog.Valid → (f (n.sock s)).backlog.Valid)
    (hcontents : (n.sock s).backlog.Valid →
      (f (n.sock s)).backlog.contents.Sublist (n.sock s).backlog.contents) :
    Sound (n.setSock s f) := by
  have hpeer' := proj_setSock UnixSocket.peer hpeer
  have hall {P : UnixSocket → UnixSocket → Prop} (hs : P (f (n.sock s)) (n.sock s))
      (hrefl : ∀ k, P k k) (t : SPtr) : P ((n.setSock s f).sock t) (n.sock t) := by
    rw [sock_setSock]
    split_ifs with ht
    · rw [ht]
      exact hs
    · exact hrefl _
  refine h.rewire rfl rfl (proj_setSock UnixSocket.live hlive)
    (hall (P := fun k k' => k.state = .closed → k'.state = .closed) hclosed fun _ => id)
    (hall (P := fun k k' => k'.backlog.Valid → k.backlog.Valid) hvalid fun _ => id)
    (hall (P := fun k k' => k'.backlog.Valid → k.backlog.contents.Sublist k'.backlog.contents)
      hcontents fun k _ => .refl _) (fun t ht => ?_) (fun t u ht hu => ?_) (fun t ht => ?_)
    (fun c hc => ?_) fun t => id
  · rw [hpeer', hall (P := fun k k' => k.state = .connected ↔ k'.state = .connected) hconn fun _ => .rfl]
    exact h.connected t ht
  · rw [hpeer'] at hu ⊢
    exact h.peer t u ht hu
  · rw [hpeer']
    exact h.closing t ht
  · obtain ⟨-, hp, hst⟩ := h.pending c hc
    exact ⟨(hpeer' c).trans hp, fun hd => hst (hall
      (P := fun k k' => k.state = .disconnected → k'.state = .disconnected) hdisc (fun _ => id) c hd)⟩

theorem Sound.busy_open (hs : n.Busy s) : n.Open s := by
  obtain ⟨k, hk, rfl⟩ := hs
  refine ⟨h.busy k hk, ?_⟩
  by_contra hc
  exact (h.closing k.sock hc).2.2 ⟨k, hk, rfl⟩

theorem Sound.pending_busy (hc : n.Pending c) : n.Busy c :=
  ⟨.wait c, (h.pending c hc).1, rfl⟩

theorem Sound.closing_dead (ha : (n.sock a).live ≠ true) : n.closing a = none := by
  by_contra hc
  exact ha (h.closing a hc).1

theorem Sound.sockAlloc (ha : (n.sock a).live ≠ true) : Sound (n.sockAlloc a) := by
  have hnew : (n.sockAlloc a).sock a = UnixSocket.new := sock_setSock_self n a _
  have hold {t : SPtr} (ht : t ≠ a) : (n.sockAlloc a).sock t = n.sock t :=
    sock_setSock_of_ne n _ ht
  have hne {t : SPtr} (ht : (n.sock t).live = true) : t ≠ a := by
    rintro rfl
    exact ha ht
  refine ⟨fun t ht => ?_, fun t u ht hu => ?_, fun t ht => ?_, fun x hx => ?_, fun c hc => ?_,
    fun l hl => ?_, fun l hl => ?_,
    fun l l' c hq hq' => h.apart l l' c (queued_sockAlloc hq) (queued_sockAlloc hq'),
    fun l l' c hq => h.taken l l' c (queued_sockAlloc hq), h.takenOnce, fun j t hj => ?_,
    h.boundOnce, fun t ht => ?_, h.bindOnce, h.freed⟩
  · by_cases hta : t = a
    · rw [hta, hnew]
      decide
    · rw [hold hta] at ht ⊢
      exact h.connected t ht
  · by_cases hta : t = a
    · rw [hta, hnew] at hu
      cases hu
    · rw [hold hta] at ht hu
      obtain ⟨hul, hp⟩ := h.peer t u ht hu
      rw [hold (hne hul)]
      exact ⟨hul, hp⟩
  · have hcl := h.closing t ht
    rw [hold (hne hcl.1)]
    exact hcl
  · rw [hold (hne (h.busy x hx))]
    exact h.busy x hx
  · obtain ⟨hw, hrest⟩ := h.pending c (pending_sockAlloc hc)
    have hlive : (n.sock c).live = true := h.busy _ hw
    rw [hold (hne hlive)]
    exact ⟨hw, hrest⟩
  · by_cases hla : l = a
    · rw [hla, hnew]
      exact ⟨by decide, by decide⟩
    · rw [hold hla] at hl ⊢
      exact h.valid l hl
  · by_cases hla : l = a
    · rw [hla, hnew]
      exact nodup_nil
    · rw [hold hla] at hl ⊢
      exact h.once l hl
  · obtain ⟨hl, hrest⟩ := h.bound j t hj
    rw [hold (hne hl)]
    exact ⟨hl, hrest⟩
  · have hlive : (n.sock t).live = true := h.busy _ ht
    rw [hold (hne hlive)]
    exact h.binding t ht

end

theorem linkPair_sock (n : Net) (hab : a ≠ s) (t : SPtr) : (n.linkPair a s).sock t =
    if t = s then { n.sock s with peer := some a, state := .connected }
    else if t = a then { n.sock a with peer := some s, state := .connected } else n.sock t := by
  rw [linkPair, sock_setSock, sock_setSock_of_ne n _ hab.symm, sock_setSock]

section
variable (h : Sound n)
include h

theorem Sound.linkPair (hab : a ≠ s) (ha : n.Open a) (hs : n.Open s)
    (hpa : (n.sock a).peer = none) (hps : (n.sock s).peer = none) (hna : ¬n.Pending a)
    (hns : ¬n.Pending s) : Sound (n.linkPair a s) := by
  have hsock := linkPair_sock n hab
  have hlive (t : SPtr) : ((n.linkPair a s).sock t).live = (n.sock t).live :=
    (proj_setSock UnixSocket.live (by rfl) t).trans (proj_setSock UnixSocket.live (by rfl) t)
  have hbacklog (t : SPtr) : ((n.linkPair a s).sock t).backlog = (n.sock t).backlog :=
    (proj_setSock UnixSocket.backlog (by rfl) t).trans (proj_setSock UnixSocket.backlog (by rfl) t)
  have hold {t : SPtr} (hta : t ≠ a) (hts : t ≠ s) : (n.linkPair a s).sock t = n.sock t := by
    rw [hsock, if_neg hts, if_neg hta]
  -- nobody else has one of the two as its peer
  have hnot {t u : SPtr} (ht : (n.sock t).live = true) (hu : (n.sock t).peer = some u) :
      u ≠ a ∧ u ≠ s := by
    obtain ⟨-, hp⟩ := h.peer t u ht hu
    constructor
    · rintro rfl
      rw [hpa, ha.2] at hp
      simp at hp
    · rintro rfl
      rw [hps, hs.2] at hp
      simp at hp
  refine h.rewire rfl rfl hlive (fun t => ?_) (fun t ht => hbacklog t ▸ ht)
    (fun t _ => hbacklog t ▸ .refl _) (fun t ht => ?_) (fun t u ht hu => ?_) (fun t ht => ?_)
    (fun c hc => ?_) fun t => id
  · rw [hsock]
    split_ifs
    · simp
    · simp
    · exact id
  · rw [hsock]
    split_ifs
    · simp
    · simp
    · exact h.connected t ht
  · by_cases hts : t = s
    · rw [hts, hsock, if_pos rfl, some.injEq] at hu
      rw [← hu, hts, hsock, if_neg hab, if_pos rfl]
      exact ⟨ha.1, .inl rfl⟩
    · by_cases hta : t = a
      · rw [hta, hsock, if_neg hab, if_pos rfl, some.injEq] at hu
        rw [← hu, hta, hsock, if_pos rfl]
        exact ⟨hs.1, .inl rfl⟩
      · rw [hold hta hts] at hu
        rw [hold (hnot ht hu).1 (hnot ht hu).2]
        exact h.peer t u ht hu
  · have hta : t ≠ a := by
      rintro rfl
      exact ht ha.2
    have hts : t ≠ s := by
      rintro rfl
      exact ht hs.2
    rw [hold hta hts]
    exact h.closing t ht
  · have hca : c ≠ a := by
      rintro rfl
      exact hna hc
    have hcs : c ≠ s := by
      rintro rfl
      exact hns hc
    rw [hold hca hcs]
    exact (h.pending c hc).2

theorem Sound.store (hl : (n.sock l).live = true) (hfull : ¬(n.sock l).backlog.full)
    (hwait : Call.wait c ∈ n.calls) (hpeer : (n.sock c).peer = none)
    (hstate : (n.sock c).state ≠ .disconnected) (hnot : ¬n.Pending c) :
    Sound (n.setSock l fun k => { k with backlog := k.backlog.store c }) := by
  have hcontents := GapRing.contents_store (h.valid l hl) hfull c
  set f : UnixSocket → UnixSocket := fun k => { k with backlog := k.backlog.store c }
  have hlive := proj_setSock (n := n) (s := l) (f := f) UnixSocket.live rfl
  have hpeer' := proj_setSock (n := n) (s := l) (f := f) UnixSocket.peer rfl
  have hstate' := proj_setSock (n := n) (s := l) (f := f) UnixSocket.state rfl
  have hqueued {m x : SPtr} (hq : (n.setSock l f).Queued m x) :
      n.Queued m x ∨ (m = l ∧ x = c) := by
    rw [Queued, hlive, sock_setSock] at hq
    split_ifs at hq with hm
    · rw [hcontents, mem_append, mem_singleton] at hq
      exact hq.2.imp (fun hx => ⟨hq.1, hm ▸ hx⟩) fun hx => ⟨hm, hx⟩
    · exact .inl hq
  refine ⟨fun t ht => ?_, fun t u ht hu => ?_, fun t ht => ?_, fun x hx => ?_, fun x hx => ?_,
    fun m hm => ?_, fun m hm => ?_, fun m m' x hq hq' => ?_, fun m m' x hq hx => ?_, h.takenOnce,
    fun j t hj => ?_, h.boundOnce, fun t ht => ?_, h.bindOnce, h.freed⟩
  · rw [hstate', hpeer']
    exact h.connected t (hlive t ▸ ht)
  · rw [hlive, hpeer']
    exact h.peer t u (hlive t ▸ ht) (hpeer' t ▸ hu)
  · rw [hlive, hpeer']
    exact h.closing t ht
  · rw [hlive]
    exact h.busy x hx
  · rw [hpeer', hstate']
    rcases hx with ⟨m, hm⟩ | hx
    · rcases hqueued hm with hm | ⟨-, rfl⟩
      · exact h.pending x (.inl ⟨m, hm⟩)
      · exact ⟨hwait, hpeer, hstate⟩
    · exact h.pending x (.inr hx)
  · rw [hlive] at hm
    rw [sock_setSock]
    split_ifs
    · exact (h.valid l hl).store c
    · exact h.valid m hm
  · rw [hlive] at hm
    rw [sock_setSock]
    split_ifs
    · rw [hcontents]
      refine nodup_append.mpr ⟨h.once l hl, pairwise_singleton _ c, fun x hx y hy => ?_⟩
      rw [mem_singleton.mp hy]
      rintro rfl
      exact hnot (.inl ⟨l, hl, hx⟩)
    · exact h.once m hm
  · rcases hqueued hq with hm | ⟨hm, hxc⟩
    · rcases hqueued hq' with hm' | ⟨-, hxc⟩
      · exact h.apart m m' x hm hm'
      · exact absurd (.inl ⟨m, hxc ▸ hm⟩) hnot
    · rcases hqueued hq' with hm' | ⟨hm', -⟩
      · exact absurd (.inl ⟨m', hxc ▸ hm'⟩) hnot
      · exact hm.trans hm'.symm
  · rcases hqueued hq with hm | ⟨-, rfl⟩
    · exact h.taken m m' x hm hx
    · exact hnot (.inr ⟨m', hx⟩)
  · rw [hlive, hstate']
    exact h.bound j t hj
  · rw [hstate']
    exact h.binding t ht

/-- A socket without a pending connection loses its peer; the stages of the closes may change. -/
theorem Sound.unpeer {closing : SPtr → Option CloseStage} (hidle : ¬n.Pending s)
    (hpeer : ∀ t u, t ≠ s → (n.sock t).live = true → (n.sock t).peer = some u →
      u ≠ s ∧ (n.sock u).peer = some t ∨ closing u = some (.unlink (some t)))
    (hclosing : ∀ t, closing t ≠ none →
      (n.sock t).live = true ∧ (t ≠ s → (n.sock t).peer = none) ∧ ¬n.Busy t)
    (hfreed : ∀ t, closing t = some .free → n.closing t = some .free) :
    Sound { n.setSock s fun k => { k with state := .disconnected, peer := none } with closing } := by
  set f : UnixSocket → UnixSocket := fun k => { k with state := .disconnected, peer := none }
  have hself : (n.setSock s f).sock s = { n.sock s with state := .disconnected, peer := none } :=
    sock_setSock_self ..
  have hold {t : SPtr} (ht : t ≠ s) : (n.setSock s f).sock t = n.sock t := sock_setSock_of_ne _ _ ht
  have hlive := proj_setSock (n := n) (s := s) (f := f) UnixSocket.live rfl
  have hbacklog := proj_setSock (n := n) (s := s) (f := f) UnixSocket.backlog rfl
  refine h.rewire rfl rfl hlive (fun t hc => ?_) (fun t ht => hbacklog t ▸ ht)
    (fun t _ => hbacklog t ▸ .refl _) (fun t ht => ?_) (fun t u ht hu => ?_) (fun t ht => ?_)
    (fun c hc => ?_) hfreed <;> dsimp only at *
  · by_cases hts : t = s
    · rw [hts, hself] at hc
      cases hc
    · rwa [hold hts] at hc
  · by_cases hts : t = s
    · rw [hts, hself]
      simp
    · rw [hold hts]
      exact h.connected t ht
  · have hts : t ≠ s := by
      rintro rfl
      rw [hself] at hu
      cases hu
    rw [hold hts] at hu
    refine ⟨(h.peer t u ht hu).1, (hpeer t u hts ht hu).imp_left fun ⟨hus, hp⟩ => ?_⟩
    rwa [hold hus]
  · obtain ⟨hl, hp, hb⟩ := hclosing t ht
    refine ⟨hl, ?_, hb⟩
    by_cases hts : t = s
    · rw [hts, hself]
    · rw [hold hts]
      exact hp hts
  · have hcs : c ≠ s := by
      rintro rfl
      exact hidle hc
    rw [hold hcs]
    exact (h.pending c hc).2

theorem Sound.close (hs : n.Open s) (hb : ¬n.Busy s) :
    Sound ((n.setSock s fun k => { k with state := .disconnected, peer := none }).setClosing s
      (some (.unlink (n.sock s).peer))) := by
  refine h.unpeer (fun hc => hb (h.pending_busy hc)) (fun t u _ ht hu => ?_) (fun t ht => ?_)
    fun t ht => ?_
  · have hp := (h.peer t u ht hu).2
    by_cases hus : u = s
    · subst hus
      rw [hs.2] at hp
      rw [update_self, hp.resolve_right (by simp)]
      exact .inr rfl
    · rw [update_of_ne hus]
      exact hp.imp_left fun hp => ⟨hus, hp⟩
  · by_cases hts : t = s
    · rw [hts]
      exact ⟨hs.1, (absurd rfl ·), hb⟩
    · rw [update_of_ne hts] at ht
      obtain ⟨hl, hp, hb⟩ := h.closing t ht
      exact ⟨hl, fun _ => hp, hb⟩
  · by_cases hts : t = s
    · rw [hts, update_self] at ht
      cases ht
    · rwa [update_of_ne hts] at ht

theorem Sound.eq_of_peer_closing {stage : CloseStage}
    (hs : n.closing s = some stage) (ht : (n.sock t).live = true)
    (hp : (n.sock t).peer = some s) : stage = .unlink (some t) := by
  obtain ⟨-, hback⟩ := h.peer t s ht hp
  rw [(h.closing s (by simp [hs])).2.1, hs] at hback
  simpa using hback

theorem Sound.setClosing {stage : CloseStage} (hs : n.closing s ≠ none)
    (hpeer : ∀ t, (n.sock t).live = true → (n.sock t).peer ≠ some s)
    (hfree : stage = .free → ∀ i, n.boundSockets i ≠ some s) :
    Sound (n.setClosing s (some stage)) := by
  refine { h with peer := fun t u ht hu => ?_, closing := fun t ht => ?_, freed := fun t ht => ?_ }
  · have hus : u ≠ s := by
      rintro rfl
      exact hpeer t ht hu
    rw [closing_setClosing_of_ne n _ hus]
    exact h.peer t u ht hu
  · by_cases hts : t = s
    · rw [hts]
      exact h.closing s hs
    · rw [closing_setClosing_of_ne n _ hts] at ht
      exact h.closing t ht
  · by_cases hts : t = s
    · rw [hts, closing_setClosing_self, some.injEq] at ht
      rw [hts]
      exact hfree ht
    · rw [closing_setClosing_of_ne n _ hts] at ht
      exact h.freed t ht

theorem Sound.disconnect (hp : (n.sock t).peer = some s) (hs : (n.sock s).peer = none) :
    Sound (n.setSock t fun k => { k with peer := none, state := .disconnected }) := by
  refine h.unpeer (fun hc => ?_) (fun u v _ hu hv => ?_) (fun u hu => ?_) fun u => id
  · have hnone := (h.pending t hc).2.1
    rw [hp] at hnone
    cases hnone
  · refine (h.peer u v hu hv).2.imp_left fun hback => ⟨?_, hback⟩
    rintro rfl
    rw [hp, some.injEq] at hback
    rw [← hback, hs] at hv
    cases hv
  · obtain ⟨hl, hnone, hb⟩ := h.closing u hu
    exact ⟨hl, fun _ => hnone, hb⟩

theorem Sound.closePeer {p : Option SPtr} {n' : Net}
    (hs : n.closing s = some (.unlink p)) (hn' : n.closePeer s p = some n') :
    Sound (n'.setClosing s (some .unbind)) := by
  have hne : n.closing s ≠ none := by simp [hs]
  have honly {u : SPtr} (hu : (n.sock u).live = true) (hup : (n.sock u).peer = some s) :
      p = some u := by
    simpa using h.eq_of_peer_closing hs hu hup
  have hnone := (h.closing s hne).2.1
  cases p with
  | none =>
    cases hn'
    refine h.setClosing hne (fun u hu hup => ?_) (by simp)
    cases honly hu hup
  | some t =>
    rw [Net.closePeer] at hn'
    split_ifs at hn' with hl hp
    · cases hn'
      refine (h.disconnect hp hnone).setClosing hne (fun u hu hup => ?_) (by simp)
      rw [sock_setSock] at hu hup
      split_ifs at hu hup with hut
      exact hut (some.inj (honly hu hup)).symm
    · cases hn'
      refine h.setClosing hne (fun u hu hup => hp ?_) (by simp)
      rw [some.inj (honly hu hup)]
      exact hup

end

variable {j : Fin maxBoundSockets} {q : Option SPtr → Bool}

theorem findBound_eq (h : n.findBound q = some j) : q (n.boundSockets j) = true :=
  find?_some (p := fun i => q (n.boundSockets i)) h

theorem findBound_none (h : n.findBound q = none)
    (j : Fin maxBoundSockets) : q (n.boundSockets j) = false := by
  have hj := find?_eq_none.mp h j (mem_finRange j)
  simpa using hj

theorem Sound.unbind (h : Sound n) :
    Sound { n with boundSockets := update n.boundSockets j none } := by
  have hold {k : Fin maxBoundSockets} {t : SPtr}
      (hk : update n.boundSockets j none k = some t) : n.boundSockets k = some t := by
    rw [update_apply] at hk
    split_ifs at hk
    exact hk
  exact { h with
      bound := fun k t hk => h.bound k t (hold hk)
      boundOnce := fun k k' t hk hk' => h.boundOnce k k' t (hold hk) (hold hk')
      freed := fun t ht k hk => h.freed t ht k (hold hk) }

theorem Sound.closeTable (h : Sound n) (s : SPtr) :
    Sound (n.closeTable s) ∧ ∀ i, (n.closeTable s).boundSockets i ≠ some s := by
  rw [Net.closeTable]
  cases hf : n.findBound (· = some s) with
  | none =>
    refine ⟨h, fun i hi => ?_⟩
    have hno := findBound_none hf i
    simp [hi] at hno
  | some j =>
    refine ⟨h.unbind, fun i hi => ?_⟩
    have hj : n.boundSockets j = some s := by simpa using findBound_eq hf
    dsimp only at hi
    rw [update_apply] at hi
    split_ifs at hi with hij
    exact hij (h.boundOnce i j s hi hj)

theorem closeTable_sock (n : Net) (s : SPtr) : (n.closeTable s).sock = n.sock ∧
    (n.closeTable s).closing = n.closing := by
  rw [Net.closeTable]
  split <;> exact ⟨rfl, rfl⟩

theorem Sound.free (h : Sound n) (hs : n.closing s = some .free) :
    Sound ((n.setSock s fun k => { k with live := false }).setClosing s none) := by
  set n' := (n.setSock s fun k => { k with live := false }).setClosing s none with hn'
  have hself : n'.sock s = { n.sock s with live := false } := by
    rw [sock_setClosing, sock_setSock_self]
  have hold {t : SPtr} (ht : t ≠ s) : n'.sock t = n.sock t := by
    rw [sock_setClosing, sock_setSock_of_ne n _ ht]
  have hclosing {t : SPtr} (ht : t ≠ s) : n'.closing t = n.closing t :=
    closing_setClosing_of_ne _ _ ht
  have hclosing_self : n'.closing s = none := closing_setClosing_self ..
  have hne {t : SPtr} (ht : (n'.sock t).live = true) : t ≠ s := by
    rintro rfl
    rw [hself] at ht
    cases ht
  obtain ⟨-, -, hbusy⟩ := h.closing s (by simp [hs])
  have hcall {k : Call} (hk : k ∈ n.calls) : k.sock ≠ s := fun hks => hbusy ⟨k, hk, hks⟩
  have hqueued {l c : SPtr} (hq : n'.Queued l c) : n.Queued l c := by
    have hl := hne hq.1
    rw [Queued, hold hl] at hq
    exact hq
  have hpending {c : SPtr} (hc : n'.Pending c) : n.Pending c ∧ c ≠ s := by
    have hp : n.Pending c := hc.imp_left fun ⟨l, hl⟩ => ⟨l, hqueued hl⟩
    refine ⟨hp, ?_⟩
    rintro rfl
    exact hbusy (h.pending_busy hp)
  refine ⟨fun t ht => ?_, fun t u ht hu => ?_, fun t ht => ?_, fun k hk => ?_, fun c hc => ?_,
    fun l hl => ?_, fun l hl => ?_, fun l l' c hq hq' => h.apart l l' c (hqueued hq) (hqueued hq'),
    fun l l' c hq => h.taken l l' c (hqueued hq), h.takenOnce, fun j t hj => ?_, h.boundOnce,
    fun t ht => ?_, h.bindOnce, fun t ht => ?_⟩
  · have hts := hne ht
    rw [hold hts] at ht ⊢
    exact h.connected t ht
  · have hts := hne ht
    rw [hold hts] at ht hu
    have hus : u ≠ s := by
      rintro rfl
      cases h.eq_of_peer_closing hs ht hu
    rw [hold hus, hclosing hus]
    exact h.peer t u ht hu
  · have hts : t ≠ s := by
      rintro rfl
      exact ht hclosing_self
    rw [hclosing hts] at ht
    rw [hold hts]
    exact h.closing t ht
  · rw [hold (hcall hk)]
    exact h.busy k hk
  · obtain ⟨hp, hcs⟩ := hpending hc
    rw [hold hcs]
    exact h.pending c hp
  · have hls := hne hl
    rw [hold hls] at hl ⊢
    exact h.valid l hl
  · have hls := hne hl
    rw [hold hls] at hl ⊢
    exact h.once l hl
  · have hts : t ≠ s := by
      rintro rfl
      exact h.freed t hs j hj
    rw [hold hts]
    exact h.bound j t hj
  · have hts : t ≠ s := hcall ht
    rw [hold hts]
    exact h.binding t ht
  · have hts : t ≠ s := by
      rintro rfl
      rw [hclosing_self] at ht
      cases ht
    rw [hclosing hts] at ht
    exact h.freed t ht

theorem Sound.enter (h : Sound n) (hs : n.Open s)
    (hstate : (n.sock s).state ≠ .closed) (hcall : Call.bind s ∉ n.calls)
    (hnot : ∀ i, n.boundSockets i ≠ some s) :
    Sound { n with boundSockets := update n.boundSockets j (some s) } := by
  have hold {k : Fin maxBoundSockets} {t : SPtr}
      (hk : update n.boundSockets j (some s) k = some t) :
      (k = j ∧ t = s) ∨ (n.boundSockets k = some t ∧ t ≠ s) := by
    rw [update_apply] at hk
    split_ifs at hk with hkj
    · exact .inl ⟨hkj, (some.inj hk).symm⟩
    · refine .inr ⟨hk, ?_⟩
      rintro rfl
      exact hnot k hk
  refine { h with
      bound := fun k t hk => ?_
      boundOnce := fun k k' t hk hk' => ?_
      freed := fun t ht k hk => ?_ }
  · rcases hold hk with ⟨-, rfl⟩ | ⟨hk, -⟩
    · exact ⟨hs.1, hstate, hcall⟩
    · exact h.bound k t hk
  · rcases hold hk with ⟨rfl, rfl⟩ | ⟨hk, hts⟩
    · rcases hold hk' with ⟨rfl, -⟩ | ⟨-, hts⟩
      · rfl
      · exact absurd rfl hts
    · rcases hold hk' with ⟨-, hts'⟩ | ⟨hk', -⟩
      · exact absurd hts' hts
      · exact h.boundOnce k k' t hk hk'
  · rcases hold hk with ⟨-, rfl⟩ | ⟨hk, -⟩
    · exact absurd (ht.symm.trans hs.2) (by simp)
    · exact h.freed t ht k hk

end Net
end SocketPeers
end Doppio
