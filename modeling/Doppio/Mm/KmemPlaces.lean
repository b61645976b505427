import Doppio.Mm.KmemSteps

/-! What a call of `kmalloc` or `kfree` knows at each place, if no other call works on its CPU. -/
namespace Doppio
open Stacks KmemHeap Option

section
variable (s : KmemHeap)

/-- A step of class `k` on CPU `c` leaves the other magazines in use alone. -/
structure Stepped (tbl : Loaded) (live : ℕ → Option ℕ) (c : ℕ) (k : KmemClass)
    (s' : KmemHeap) (tbl' : Loaded) (live' : ℕ → Option ℕ) : Prop where
  sound : HeapSound s' tbl' live'
  tbl_eq : ∀ c' k', ¬ (c' = c ∧ k' = k) → tbl' c' k' = tbl c' k'
  magazines_eq : ∀ c' k', ¬ (c' = c ∧ k' = k) → s'.magazines c' k' = s.magazines c' k'
  top_eq : ∀ c' k' b, ¬ (c' = c ∧ k' = k) → tbl c' k' = some b →
    (s'.magazine b).top = (s.magazine b).top
  objSize_eq : ∀ y, live y ≠ none → s'.objSize (y / pageSize) = s.objSize (y / pageSize)

/-- The top of the magazine of a CPU or of the call on it. -/
def ownTop (tbl : Loaded) (c : ℕ) (k : KmemClass) : Option ℤ :=
  (tbl c k).map fun a => (s.magazine a).top

/-- What a call has in hand: the same, a new object, or none any more. -/
inductive Passed (live : ℕ → Option ℕ) : Option ℕ → Option ℕ → (ℕ → Option ℕ) → Prop where
  | keep (o : Option ℕ) : Passed live o o live
  | gain {x : ℕ} : live x = none → Passed live none (some x) (Function.update live x (some 0))
  | give (x : ℕ) : Passed live (some x) none (Function.update live x none)

/-- The object of a call: to be freed, or cut for a new magazine. -/
def HeapPc.object (op : HeapOp) : HeapPc → Option ℕ
  | .stow _ _ _ _ obj => some obj
  | _ =>
    match op with
    | .kmalloc _ => none
    | .kfree ptr => some ptr

/-- The magazine in a call's hand, on no list and in no CPU. -/
def HeapPc.magazine : HeapPc → Option ℕ
  | .reset _ _ mag => some mag
  | .refill _ _ mag _ => some mag
  | .stow _ _ mag _ _ => some mag
  | .store _ _ mag => mag
  | _ => none

/-- The CPU in a swap: its magazine is on a list of the depot, and it has no other yet. -/
def HeapPc.swapping : HeapPc → Option ℕ
  | .getEmpty _ sw => sw
  | .magAlloc _ sw => sw
  | .reset _ sw _ => sw
  | .refill _ c' _ _ => some c'
  | .stow _ c' _ _ _ => some c'
  | .store _ sw _ => sw
  | _ => none

def Outcome.object (op : HeapOp) : Outcome → Option ℕ
  | .goto pc => pc.object op
  | .done ptr => ptr

def Outcome.inHand (op : HeapOp) : Outcome → Option ℕ
  | .goto pc => pc.object op
  | .done _ => none

def HeapOp.wornTop : HeapOp → ℤ
  | .kmalloc _ => 0
  | .kfree _ => kmemMagCapacity

/-- What a call alone on CPU `c` knows at each place: `slot` is the CPU's magazine, `own` the one of
the CPU or the call, with its `top`. They differ in a swap and in the search for a first one. -/
def Place (c : ℕ) (op : HeapOp) (slot own : Option ℕ) (top : Option ℤ) : HeapPc → Prop
  | .curcpu => own = slot
  | .test c₁ => c₁ = c ∧ own = slot
  | .getEmpty c₁ sw => c₁ = c ∧ (sw = none ∧ slot = none ∨ sw = some c) ∧ own = none
  | .magAlloc c₁ sw => c₁ = c ∧ (sw = none ∧ slot = none ∨ sw = some c) ∧ own = none
  | .reset c₁ sw mag =>
    c₁ = c ∧ (sw = none ∧ slot = none ∨ sw = some c) ∧ own = some mag ∧ top = some 0
  | .refill c₁ c₂ mag _ => (∃ size, op = .kmalloc size) ∧ c₁ = c ∧ c₂ = c ∧ own = some mag
  | .stow c₁ c₂ mag _ _ => (∃ size, op = .kmalloc size) ∧ c₁ = c ∧ c₂ = c ∧ own = some mag
  | .store c₁ sw mag =>
    c₁ = c ∧ (sw = none ∧ slot = none ∨ sw = some c) ∧ own = mag ∧ own ≠ none
  | .recheck c₁ => c₁ = c ∧ own = slot ∧ own ≠ none
  | .read c₁ _ => c₁ = c ∧ own = slot
  | .use c₁ _ mag => c₁ = c ∧ own = slot ∧ mag = slot
  | .swapCpu c₁ => c₁ = c ∧ own = slot ∧ top = some op.wornTop
  | .swapRead c₁ c₂ => c₁ = c ∧ c₂ = c ∧ own = slot ∧ top = some op.wornTop
  | .swap c₁ c₂ mag => c₁ = c ∧ c₂ = c ∧ own = slot ∧ mag = slot ∧ top = some op.wornTop

/-- The place after a step; a call ends with its magazine loaded. -/
def Arrived (c : ℕ) (op : HeapOp) (k : KmemClass) (s : KmemHeap) (tbl : Loaded) : Outcome → Prop
  | .goto pc => Place c op (s.magazines c k) (tbl c k) (ownTop s tbl c k) pc
  | .done _ => tbl c k = s.magazines c k

def Handles (live : ℕ → Option ℕ) (k : KmemClass) (o : Option ℕ) : Prop :=
  ∀ x ∈ o, live x ≠ none ∧ s.objSize (x / pageSize) = kmemClassSizes k

/-- A step from `s` to `s'` and `out`, with its effect on magazines and objects. -/
structure Advances (tbl : Loaded) (live : ℕ → Option ℕ) (c : ℕ) (op : HeapOp)
    (k : KmemClass) (o : Option ℕ) (s' : KmemHeap) (out : Outcome) (tbl' : Loaded)
    (live' : ℕ → Option ℕ) : Prop where
  stepped : Stepped s tbl live c k s' tbl' live'
  passed : Passed live o (out.object op) live'
  arrived : Arrived c op k s' tbl' out
  handles : Handles s' live' k (out.inHand op)

end

section Steps

variable {s s' : KmemHeap} {tbl : Loaded} {live : ℕ → Option ℕ} {c : ℕ} {k : KmemClass} {op : HeapOp}
  {a x : ℕ} {out : Outcome}

variable {k' : KmemClass} {c' : ℕ}

theorem Loaded.set_of_ne (tbl : Loaded) (h : ¬ (c' = c ∧ k' = k))
    (mag : Option ℕ) : tbl.set c k mag c' k' = tbl c' k' := by
  rw [Loaded.set_apply, if_neg h]

theorem Stepped.refl (h : HeapSound s tbl live) (c : ℕ) (k : KmemClass) :
    Stepped s tbl live c k s tbl live :=
  ⟨h, fun _ _ _ => rfl, fun _ _ _ => rfl, fun _ _ _ _ _ => rfl, fun _ _ => rfl⟩

theorem HeapSound.ne_of_loaded (h : HeapSound s tbl live) (ha : tbl c k = some a)
    {b : ℕ} (hne : ¬ (c' = c ∧ k' = k)) (hb : tbl c' k' = some b) : b ≠ a := by
  obtain ⟨g, h⟩ := h
  rintro rfl
  exact hne (h.racked.loaded_inj c' k' c k b hb ha)

variable {live' : ℕ → Option ℕ}

theorem Stepped.of_own (h : HeapSound s tbl live) (ha : tbl c k = some a)
    (hs : HeapSound s' tbl live') (hmags : s'.magazines = s.magazines)
    (hsize : s'.objSize = s.objSize)
    (htop : ∀ b, b ≠ a → (s'.magazine b).top = (s.magazine b).top) :
    Stepped s tbl live c k s' tbl live' :=
  ⟨hs, fun _ _ _ => rfl, fun _ _ _ => by rw [hmags],
    fun _ _ b hne hb => htop b (h.ne_of_loaded ha hne hb), fun _ _ => by rw [hsize]⟩

theorem Stepped.of_set {r : Option ℕ} (hs : HeapSound s' (tbl.set c k r) live)
    (hmags : ∀ c' k', ¬ (c' = c ∧ k' = k) → s'.magazines c' k' = s.magazines c' k')
    (hsize : s'.objSize = s.objSize)
    (htop : ∀ b, r ≠ some b → (s'.magazine b).top = (s.magazine b).top) :
    Stepped s tbl live c k s' (tbl.set c k r) live := by
  refine ⟨hs, fun c' k' hne => Loaded.set_of_ne tbl hne r, hmags, fun c' k' b hne hb => ?_,
    fun _ _ => by rw [hsize]⟩
  apply htop
  intro hr
  have hb' : tbl.set c k r c' k' = some b := (Loaded.set_of_ne tbl hne r).trans hb
  exact hs.ne_of_loaded ((Loaded.set_self ..).trans hr) hne hb' rfl

theorem Stepped.advances {tbl' : Loaded} {o : Option ℕ} (hst : Stepped s tbl live c k s' tbl' live)
    (hh : Handles s live k o) (ho : out.object op = o) (ha : Arrived c op k s' tbl' out) :
    Advances s tbl live c op k o s' out tbl' live := by
  refine ⟨hst, ho ▸ .keep _, ha, fun x hx => ?_⟩
  have hx' : x ∈ o := by
    cases out with
    | goto pc => exact ho ▸ hx
    | done ptr => cases hx
  obtain ⟨hl, hsize⟩ := hh x hx'
  exact ⟨hl, (hst.objSize_eq x hl).trans hsize⟩

section
variable (h : HeapSound s tbl live)
include h

variable {c1 : ℕ} {sw : Option ℕ}

theorem getEmpty_advance
    (hp : Arrived c op k s tbl (.goto (.getEmpty c1 sw)))
    (he : s.advance c op k (.getEmpty c1 sw) = some (s', out))
    (hh : Handles s live k (HeapPc.object op (.getEmpty c1 sw))) :
    ∃ tbl', Advances s tbl live c op k (HeapPc.object op (.getEmpty c1 sw)) s' out tbl' live := by
  obtain ⟨hc, hsw, hown⟩ := hp
  simp only [advance] at he
  cases hd : (s.depots k).emptyMags with
  | none =>
    simp only [hd] at he
    cases he
    exact ⟨tbl, (Stepped.refl h c k).advances hh rfl ⟨hc, hsw, hown⟩⟩
  | some mag =>
    simp only [hd] at he
    cases he
    obtain ⟨g, h⟩ := h
    obtain ⟨hs, htop⟩ := h.popEmpty hd hown
    have hst : Stepped s tbl live c k (s.popEmpty k mag) (tbl.set c k (some mag)) live :=
      .of_set hs (fun _ _ _ => rfl) rfl fun _ _ => rfl
    refine ⟨_, hst.advances hh rfl ⟨hc, hsw, Loaded.set_self .., ?_⟩⟩
    simp only [ownTop, Loaded.set_self]
    exact congrArg some htop

theorem magAlloc_advance
    (hp : Arrived c op k s tbl (.goto (.magAlloc c1 sw)))
    (he : s.advance c op k (.magAlloc c1 sw) = some (s', out))
    (hq : s'.pmm.outOfMemory = s.pmm.outOfMemory)
    (hh : Handles s live k (HeapPc.object op (.magAlloc c1 sw))) :
    ∃ tbl', Advances s tbl live c op k (HeapPc.object op (.magAlloc c1 sw)) s' out tbl' live := by
  obtain ⟨hc, hsw, hown⟩ := hp
  obtain ⟨s1, r, halloc, hl⟩ := kmemInternalMagAlloc_loads h hown
  simp only [advance, halloc] at he
  cases r with
  | none =>
    cases he
    exact absurd (congrArg List.length hq) (hl.failed rfl).1.ne'
  | some mag =>
    cases he
    have hst : Stepped s tbl live c k s' (tbl.set c k (some mag)) live :=
      .of_set hl.sound (fun _ _ _ => by rw [hl.magazines]) hl.objSize fun b hb =>
        kmemInternalMagAlloc_top halloc fun e => hb (by rw [e])
    rw [← hl.magazines] at hsw
    refine ⟨_, hst.advances hh rfl ⟨hc, hsw, Loaded.set_self .., ?_⟩⟩
    simp only [ownTop, Loaded.set_self, map_some, hl.empty mag rfl]

theorem reset_advance {mag : ℕ}
    (hp : Arrived c op k s tbl (.goto (.reset c1 sw mag)))
    (he : s.advance c op k (.reset c1 sw mag) = some (s', out))
    (hh : Handles s live k (HeapPc.object op (.reset c1 sw mag))) :
    Advances s tbl live c op k (HeapPc.object op (.reset c1 sw mag)) s' out tbl live := by
  obtain ⟨hc, hsw, hown, htop⟩ := hp
  rw [ownTop, hown] at htop
  cases he
  obtain ⟨g, hg⟩ := h
  have hst : Stepped s tbl live c k (s.setMag mag fun m => { m with top := 0, next := none }) tbl
      live := .of_own ⟨g, hg⟩ hown (hg.reset hown (some.inj htop)) rfl rfl
        fun b hb => top_setMag_of_ne hb _
  apply hst.advances hh
  · cases op <;> cases sw <;> rfl
  · cases op with
    | kmalloc size =>
      cases sw with
      | none => exact ⟨hc, hsw, hown, by simp [hown]⟩
      | some c' => exact ⟨⟨size, rfl⟩, hc, by simpa using hsw, hown⟩
    | kfree ptr => exact ⟨hc, hsw, hown, by simp [hown]⟩

theorem refill_advance {c2 mag i : ℕ}
    (hp : Arrived c op k s tbl (.goto (.refill c1 c2 mag i)))
    (he : s.advance c op k (.refill c1 c2 mag i) = some (s', out))
    (hq : s'.pmm.outOfMemory = s.pmm.outOfMemory)
    (hh : Handles s live k (HeapPc.object op (.refill c1 c2 mag i))) :
    ∃ live', Advances s tbl live c op k (HeapPc.object op (.refill c1 c2 mag i)) s' out tbl live' := by
  obtain ⟨⟨size, rfl⟩, hc, hc', hown⟩ := hp
  simp only [advance] at he
  split_ifs at he with hi
  · obtain ⟨g, hg⟩ := h
    obtain ⟨s1, r, hrefill, hsame, hnone, hsome⟩ := hg.kmemDepotRefill k
    simp only [hrefill] at he
    cases r with
    | none =>
      cases he
      exact absurd (congrArg List.length hq) (hnone rfl).2.ne'
    | some obj =>
      cases he
      obtain ⟨hfresh, hs, hsize⟩ := hsome obj rfl
      refine ⟨_, ⟨hs, fun _ _ _ => rfl, fun _ _ _ => by rw [hsame.magazines],
        fun _ _ _ _ _ => by rw [hsame.magazine], fun y hy => hg.kmemDepotRefill_objSize hrefill hy⟩,
        .gain hfresh, ⟨⟨size, rfl⟩, hc, hc', hown⟩, fun y hy => ?_⟩
      cases hy
      exact ⟨by simp, hsize⟩
  · cases he
    refine ⟨live, (Stepped.refl h c k).advances hh rfl ?_⟩
    exact ⟨hc, .inr (by rw [hc']), hown, by simp [hown]⟩

theorem stow_advance {c2 mag i obj : ℕ}
    (hp : Arrived c op k s tbl (.goto (.stow c1 c2 mag i obj)))
    (he : s.advance c op k (.stow c1 c2 mag i obj) = some (s', out))
    (hh : Handles s live k (HeapPc.object op (.stow c1 c2 mag i obj))) :
    Advances s tbl live c op k (some obj) s' out tbl (Function.update live obj none) := by
  obtain ⟨⟨size, rfl⟩, hc, hc', hown⟩ := hp
  obtain ⟨s1, hpush, he⟩ := map_eq_some_iff.mp he
  cases he
  have htop : (s.magazine mag).top < kmemMagCapacity := by
    by_contra hge
    rw [pushSlot, if_neg fun hr => hge hr.2] at hpush
    cases hpush
  obtain ⟨g, hg⟩ := h
  obtain ⟨hlive, hsize⟩ := hh obj rfl
  obtain ⟨m, hpush', hs, -⟩ := hg.pushSlot hown htop hlive hsize
  cases hpush'.symm.trans hpush
  exact ⟨.of_own ⟨g, hg⟩ hown hs rfl rfl fun b hb => pushSlot_top hpush' hb, .give obj,
    ⟨⟨size, rfl⟩, hc, hc', hown⟩, nofun⟩

variable {mag : Option ℕ}

theorem store_advance
    (hp : Arrived c op k s tbl (.goto (.store c1 sw mag)))
    (he : s.advance c op k (.store c1 sw mag) = some (s', out))
    (hh : Handles s live k (HeapPc.object op (.store c1 sw mag))) :
    Advances s tbl live c op k (HeapPc.object op (.store c1 sw mag)) s' out tbl live := by
  obtain ⟨rfl, hsw, hown, hne⟩ := hp
  have hload : Stepped s tbl live c1 k (s.load c1 k mag) tbl live :=
    ⟨h.load c1 k mag, fun _ _ _ => rfl, fun c' k' hne => Loaded.set_of_ne s.magazines hne mag,
      fun _ _ _ _ _ => rfl, fun _ _ => rfl⟩
  have hslot : tbl c1 k = (s.load c1 k mag).magazines c1 k := by
    rw [hown]
    exact (Loaded.set_self s.magazines ..).symm
  rcases hsw with ⟨rfl, -⟩ | rfl
  · cases he
    exact hload.advances hh rfl ⟨rfl, hslot, hne⟩
  · cases he
    exact hload.advances hh rfl ⟨rfl, hslot⟩

theorem use_advance {again : Bool}
    (hp : Arrived c op k s tbl (.goto (.use c1 again mag)))
    (he : s.advance c op k (.use c1 again mag) = some (s', out))
    (hh : Handles s live k (HeapPc.object op (.use c1 again mag))) :
    ∃ live', Advances s tbl live c op k (HeapPc.object op (.use c1 again mag)) s' out tbl live' := by
  obtain ⟨hc, hown, rfl⟩ := hp
  obtain ⟨g, hg⟩ := h
  have hrefl : Stepped s tbl live c k s tbl live := .refl ⟨g, hg⟩ c k
  simp only [advance] at he
  cases hm : s.magazines c k with
  | none =>
    rw [hm] at he
    cases op with
    | kfree ptr => cases he
    | kmalloc size =>
      simp only [useMagazine] at he
      split_ifs at he
      cases he
      exact ⟨live, hrefl.advances hh rfl hown⟩
  | some a =>
    rw [hm] at he hown
    have hholds := hg.racked.loaded c k a hown
    have htop := hholds.top
    have hle := hholds.length_le
    have hworn (hw : (s.magazine a).top = op.wornTop) :
        Arrived c op k s tbl (.goto (.swapCpu c1)) := by
      refine ⟨hc, hown.trans hm.symm, ?_⟩
      rw [ownTop, hown, ← hw]
      rfl
    cases op with
    | kmalloc size =>
      simp only [useMagazine] at he
      by_cases hpos : 0 < (s.magazine a).top
      · rw [if_pos hpos] at he
        obtain ⟨⟨s1, r⟩, hpop, he⟩ := map_eq_some_iff.mp he
        cases he
        obtain ⟨m, x, hpop', hx, hs⟩ := hg.popSlot hown hpos
        cases hpop'.symm.trans hpop
        exact ⟨_, .of_own ⟨g, hg⟩ hown (hs 0 (Nat.zero_le _)) rfl rfl
          fun b hb => popSlot_top hpop' hb, .gain hx, hown.trans hm.symm, nofun⟩
      · split_ifs at he
        · cases he
          exact ⟨live, hrefl.advances hh rfl (hown.trans hm.symm)⟩
        · cases he
          exact ⟨live, hrefl.advances hh rfl (hworn (by simp only [HeapOp.wornTop]; omega))⟩
    | kfree ptr =>
      obtain ⟨hl, hsize⟩ := hh ptr rfl
      simp only [useMagazine] at he
      split_ifs at he with hroom
      · obtain ⟨s1, hpush, he⟩ := map_eq_some_iff.mp he
        cases he
        have hlt : (s.magazine a).top < kmemMagCapacity := by
          by_contra hge
          rw [pushSlot, if_neg fun hr => hge hr.2] at hpush
          cases hpush
        obtain ⟨m, hpush', hs, -⟩ := hg.pushSlot hown hlt hl hsize
        cases hpush'.symm.trans hpush
        exact ⟨_, .of_own ⟨g, hg⟩ hown hs rfl rfl fun b hb => pushSlot_top hpush' hb, .give ptr,
          hown.trans hm.symm, nofun⟩
      · cases he
        exact ⟨live, hrefl.advances hh rfl (hworn (by simp only [HeapOp.wornTop]; omega))⟩

theorem swap_advance {c2 : ℕ}
    (hp : Arrived c op k s tbl (.goto (.swap c1 c2 mag)))
    (he : s.advance c op k (.swap c1 c2 mag) = some (s', out))
    (hh : Handles s live k (HeapPc.object op (.swap c1 c2 mag))) :
    ∃ tbl', Advances s tbl live c op k (HeapPc.object op (.swap c1 c2 mag)) s' out tbl' live := by
  obtain ⟨hc, rfl, hown, hmag, htop⟩ := hp
  obtain ⟨a, rfl, hres⟩ := map_eq_some_iff.mp he
  rw [← hmag] at hown
  rw [ownTop, hown] at htop
  have htop' : (s.magazine a).top = op.wornTop := some.inj htop
  have hself (r : Option ℕ) : tbl.set c2 k r c2 k = r := Loaded.set_self ..
  obtain ⟨g, hg⟩ := h
  cases op with
  | kmalloc size =>
    have hs : HeapSound (s.pushEmpty k a) (tbl.set c2 k none) live := hg.pushEmpty hown htop'
    unfold swapMagazine at hres
    cases hd : ((s.pushEmpty k a).depots k).fullMags with
    | none =>
      simp only [hd] at hres
      cases hres
      have hst : Stepped s tbl live c2 k (s.pushEmpty k a) (tbl.set c2 k none) live :=
        .of_set hs (fun _ _ _ => rfl) rfl fun _ _ => top_pushEmpty
      exact ⟨_, hst.advances hh rfl ⟨hc, .inr rfl, hself none⟩⟩
    | some full =>
      simp only [hd] at hres
      cases hres
      obtain ⟨g', hg'⟩ := hs
      obtain ⟨hs', -⟩ := hg'.popFull hd (hself none)
      rw [Loaded.set_set] at hs'
      have hst : Stepped s tbl live c2 k (((s.pushEmpty k a).popFull k full).load c2 k (some full))
          (tbl.set c2 k (some full)) live :=
        .of_set (hs'.load c2 k (some full)) (fun _ _ hne => Loaded.set_of_ne s.magazines hne _) rfl
          fun _ _ => top_pushEmpty
      exact ⟨_, hst.advances hh rfl
        ⟨hc, (hself _).trans (Loaded.set_self s.magazines ..).symm⟩⟩
  | kfree ptr =>
    have hs : HeapSound (s.pushFull k a) (tbl.set c2 k none) live := hg.pushFull hown htop'
    unfold swapMagazine at hres
    cases hd : ((s.pushFull k a).depots k).emptyMags with
    | none =>
      simp only [hd] at hres
      cases hres
      have hst : Stepped s tbl live c2 k (s.pushFull k a) (tbl.set c2 k none) live :=
        .of_set hs (fun _ _ _ => rfl) rfl fun _ _ => top_pushFull
      exact ⟨_, hst.advances hh rfl ⟨hc, .inr rfl, hself none⟩⟩
    | some empty =>
      simp only [hd] at hres
      cases hres
      obtain ⟨g', hg'⟩ := hs
      obtain ⟨hs', -⟩ := hg'.popEmpty hd (hself none)
      rw [Loaded.set_set] at hs'
      have hst : Stepped s tbl live c2 k ((s.pushFull k a).popEmpty k empty)
          (tbl.set c2 k (some empty)) live :=
        .of_set hs' (fun _ _ _ => rfl) rfl fun _ _ => top_pushFull
      exact ⟨_, hst.advances hh rfl ⟨hc, .inr rfl, hself _, by simp⟩⟩

theorem Place.advance {pc : HeapPc}
    (hp : Place c op (s.magazines c k) (tbl c k) (ownTop s tbl c k) pc)
    (he : s.advance c op k pc = some (s', out)) (hq : s'.pmm.outOfMemory = s.pmm.outOfMemory)
    (hh : Handles s live k (pc.object op)) :
    ∃ tbl' live', Advances s tbl live c op k (pc.object op) s' out tbl' live' := by
  have hsame : Stepped s tbl live c k s tbl live := .refl h c k
  cases pc with
  | curcpu =>
    cases he
    exact ⟨_, _, hsame.advances hh rfl ⟨rfl, hp⟩⟩
  | test c1 =>
    obtain ⟨rfl, hown⟩ := hp
    simp only [KmemHeap.advance] at he
    cases hm : s.magazines c1 k with
    | some a =>
      simp only [hm] at he
      cases he
      exact ⟨_, _, hsame.advances hh rfl ⟨rfl, hown⟩⟩
    | none =>
      simp only [hm] at he
      cases he
      exact ⟨_, _, hsame.advances hh rfl ⟨rfl, .inl ⟨rfl, hm⟩, hown.trans hm⟩⟩
  | getEmpty c1 sw =>
    obtain ⟨tbl', ha⟩ := getEmpty_advance h hp he hh
    exact ⟨tbl', live, ha⟩
  | magAlloc c1 sw =>
    obtain ⟨tbl', ha⟩ := magAlloc_advance h hp he hq hh
    exact ⟨tbl', live, ha⟩
  | reset c1 sw mag => exact ⟨tbl, live, reset_advance h hp he hh⟩
  | refill c1 c2 mag i => exact ⟨tbl, refill_advance h hp he hq hh⟩
  | stow c1 c2 mag i obj => exact ⟨tbl, _, stow_advance h hp he hh⟩
  | store c1 sw mag => exact ⟨tbl, live, store_advance h hp he hh⟩
  | recheck c1 =>
    obtain ⟨rfl, hown, hne⟩ := hp
    obtain ⟨a, ha⟩ := ne_none_iff_exists'.mp hne
    have hm : s.magazines c1 k = some a := hown.symm.trans ha
    simp only [KmemHeap.advance, hm] at he
    cases he
    exact ⟨_, _, hsame.advances hh rfl ⟨rfl, hown⟩⟩
  | read c1 again =>
    obtain ⟨rfl, hown⟩ := hp
    cases he
    exact ⟨_, _, hsame.advances hh rfl ⟨rfl, hown, rfl⟩⟩
  | use c1 again mag => exact ⟨tbl, use_advance h hp he hh⟩
  | swapCpu c1 =>
    obtain ⟨rfl, hown, htop⟩ := hp
    cases he
    exact ⟨_, _, hsame.advances hh rfl ⟨rfl, rfl, hown, htop⟩⟩
  | swapRead c1 c2 =>
    obtain ⟨rfl, rfl, hown, htop⟩ := hp
    cases he
    exact ⟨_, _, hsame.advances hh rfl ⟨rfl, rfl, hown, rfl, htop⟩⟩
  | swap c1 c2 mag =>
    obtain ⟨tbl', ha⟩ := swap_advance h hp he hh
    exact ⟨tbl', live, ha⟩

end

theorem Place.slot_or_magazine {slot own : Option ℕ} {top : Option ℤ} {pc : HeapPc}
    (hp : Place c op slot own top pc) (ha : own = some a) : slot = some a ∨ pc.magazine = some a := by
  cases pc with
  | curcpu => exact .inl (Eq.trans (Eq.symm hp) ha)
  | test => exact .inl (hp.2.symm.trans ha)
  | getEmpty => cases hp.2.2.symm.trans ha
  | magAlloc => cases hp.2.2.symm.trans ha
  | reset => exact .inr (hp.2.2.1.symm.trans ha)
  | refill => exact .inr (hp.2.2.2.symm.trans ha)
  | stow => exact .inr (hp.2.2.2.symm.trans ha)
  | store => exact .inr (hp.2.2.1.symm.trans ha)
  | recheck => exact .inl (hp.2.1.symm.trans ha)
  | read => exact .inl (hp.2.symm.trans ha)
  | use => exact .inl (hp.2.1.symm.trans ha)
  | swapCpu => exact .inl (hp.2.1.symm.trans ha)
  | swapRead => exact .inl (hp.2.2.1.symm.trans ha)
  | swap => exact .inl (hp.2.2.1.symm.trans ha)

theorem Place.own_or_swapping {slot own : Option ℕ} {top : Option ℤ} {pc : HeapPc}
    (hp : Place c op slot own top pc) (ha : slot = some a) :
    own = some a ∨ pc.swapping = some c := by
  have hsw {sw : Option ℕ} (h : sw = none ∧ slot = none ∨ sw = some c) :
      own = some a ∨ sw = some c := by
    rcases h with ⟨-, hnone⟩ | h
    · cases hnone.symm.trans ha
    · exact .inr h
  cases pc with
  | curcpu => exact .inl (Eq.trans hp ha)
  | test => exact .inl (hp.2.trans ha)
  | getEmpty => exact hsw hp.2.1
  | magAlloc => exact hsw hp.2.1
  | reset => exact hsw hp.2.1
  | refill => exact .inr (congrArg some hp.2.2.1)
  | stow => exact .inr (congrArg some hp.2.2.1)
  | store => exact hsw hp.2.1
  | recheck => exact .inl (hp.2.1.trans ha)
  | read => exact .inl (hp.2.trans ha)
  | use => exact .inl (hp.2.1.trans ha)
  | swapCpu => exact .inl (hp.2.1.trans ha)
  | swapRead => exact .inl (hp.2.2.1.trans ha)
  | swap => exact .inl (hp.2.2.1.trans ha)

theorem Stepped.ownTop_eq {tbl' : Loaded}
    (h : Stepped s tbl live c k s' tbl' live') (hne : ¬ (c' = c ∧ k' = k)) :
    ownTop s' tbl' c' k' = ownTop s tbl c' k' := by
  unfold ownTop
  rw [h.tbl_eq c' k' hne]
  cases hb : tbl c' k' with
  | none => rfl
  | some b => exact congrArg some (h.top_eq c' k' b hne hb)

end Steps
end Doppio
