import Doppio.Library.Run
import Doppio.Library.Word

/-! Read-copy-update of `kernel/misc/rcu.c`. One step is a section under `rcu_state.lock` or another
access to the shared words; a CPU runs one `rcu_report_qs` at a time. -/
namespace Doppio
open Function Finset
open List

/-- `rcu_state` and the two per-CPU counters, over callbacks `β` and CPUs `γ`. -/
structure Rcu (β γ : Type*) where
  pending : List β
  done : List β
  gpActive : Bool
  cpusOut : ℤ
  /-- `rcu_nesting`, an `int` -/
  nesting : γ → BitVec 32
  qsPending : γ → Bool

namespace Rcu
variable {β γ : Type*}

def init : Rcu β γ := ⟨[], [], false, 0, fun _ => 0, fun _ => false⟩

section cpus
variable [DecidableEq γ]

variable (r : Rcu β γ)

def readLock (c : γ) : Rcu β γ :=
  { r with nesting := update r.nesting c (r.nesting c + 1) }

def readUnlock (c : γ) : Rcu β γ :=
  { r with nesting := update r.nesting c (r.nesting c - 1) }

def quiescent (c : γ) : Bool :=
  r.gpActive && !(0 < (r.nesting c).toInt) && r.qsPending c

def clearQs (c : γ) : Rcu β γ :=
  { r with qsPending := update r.qsPending c false }

end cpus

/-- `call_rcu` starts a grace period if there is none. -/
def callRcu [Fintype γ] (r : Rcu β γ) (b : β) : Rcu β γ :=
  let r := { r with pending := r.pending ++ [b] }
  if r.gpActive then r
  else { r with gpActive := true, cpusOut := Fintype.card γ, qsPending := fun _ => true }

/-- The `__atomic_fetch_sub` of `rcu_report_qs`; true for the last CPU. -/
def countDown (r : Rcu β γ) : Rcu β γ × Bool :=
  ({ r with cpusOut := r.cpusOut - 1 }, r.cpusOut = 1)

/-- The locked part of `rcu_report_qs`: all pending is done. -/
def finish (r : Rcu β γ) : Rcu β γ :=
  { r with pending := [], done := r.done ++ r.pending, gpActive := false }

/-- The locked part of `rcu_softirq_handler`. -/
def takeBatch (r : Rcu β γ) : List β × Rcu β γ := (r.done, { r with done := [] })

/-- Outside `rcu_report_qs`, past the store to `rcu_qs_pending`, or last out and on its way to the
lock. -/
inductive Pc where
  | idle
  | cleared
  | last
  deriving DecidableEq

/-- The batches of the softirq handlers, and what has been seen: the true nesting depth of each CPU,
the CPUs outside all read-side sections at some moment since a callback was passed to `call_rcu`,
and this set for each invocation. -/
structure System (β γ : Type*) extends Rcu β γ where
  pc : γ → Pc
  batches : List (List β)
  depth : γ → ℕ
  outside : β → γ → Bool
  invoked : List (β × (γ → Bool))

inductive Event (β γ : Type*) where
  | readLock (c : γ)
  | readUnlock (c : γ)
  | callRcu (b : β)
  | clearQs (c : γ)
  | countDown (c : γ)
  | finish (c : γ)
  | takeBatch
  /-- the next callback of the `i`-th batch -/
  | invoke (i : ℕ)

namespace System
def start : System β γ := ⟨init, fun _ => .idle, [], fun _ => 0, fun _ _ => false, []⟩

/-- Every CPU at depth zero is seen outside. -/
def observe (s : System β γ) : System β γ :=
  { s with outside := fun b c => s.outside b c || s.depth c = 0 }

/-- Every CPU has been outside since each callback that is done, and those that have reported since
each pending one. -/
structure Waited (s : System β γ) : Prop where
  pending : ∀ b ∈ s.pending, ∀ c, s.qsPending c = false → s.outside b c
  done : ∀ b ∈ s.done, ∀ c, s.outside b c
  batches : ∀ bs ∈ s.batches, ∀ b ∈ bs, ∀ c, s.outside b c
  invoked : ∀ e ∈ s.invoked, ∀ c, e.2 c

variable {s : System β γ}

theorem Waited.observe (h : s.Waited) : s.observe.Waited := by
  refine ⟨fun b hb c hc => ?_, fun b hb c => ?_, fun bs hbs b hb c => ?_, h.invoked⟩
  · simp [System.observe, h.pending b hb c hc]
  · simp [System.observe, h.done b hb c]
  · simp [System.observe, h.batches bs hbs b hb c]

section counting
variable [Fintype γ]

/-- The CPUs still to decrement `cpus_out`. -/
def awaited (s : System β γ) : Finset γ :=
  Finset.univ.filter fun c => s.qsPending c = true ∨ s.pc c = .cleared

variable {c : γ}

@[simp] theorem mem_awaited :
    c ∈ s.awaited ↔ s.qsPending c = true ∨ s.pc c = .cleared := by simp [awaited]

/-- The counters say how far the grace period is. -/
structure Counting (s : System β γ) : Prop where
  nesting : ∀ c, (s.nesting c).toInt = s.depth c
  inactive : s.gpActive = false →
    s.pending = [] ∧ (∀ c, s.qsPending c = false) ∧ ∀ c, s.pc c = .idle
  active : s.gpActive = true → s.cpusOut = s.awaited.card
  cleared : ∀ c, s.pc c = .cleared → s.qsPending c = false
  last : ∀ c, s.pc c = .last → s.cpusOut = 0
  one_last : ∀ c d, s.pc c = .last → s.pc d = .last → c = d

theorem Counting.active_of_pc (h : s.Counting) (hc : s.pc c ≠ .idle) :
    s.gpActive = true := by
  by_contra hno
  exact hc ((h.inactive (by simpa using hno)).2.2 c)

theorem Counting.awaited_of_last (h : s.Counting) (hc : s.pc c = .last) :
    s.awaited = ∅ := by
  have hcard := h.active (h.active_of_pc (c := c) (by simp [hc]))
  rw [h.last c hc] at hcard
  rw [← card_eq_zero]
  omega

theorem Counting.callRcu (h : s.Counting) (b : β) (outside : β → γ → Bool) :
    { s with toRcu := s.toRcu.callRcu b, outside := outside }.Counting := by
  by_cases hgp : s.gpActive
  · have hcall : s.toRcu.callRcu b = { s.toRcu with pending := s.pending ++ [b] } := by
      simp [Rcu.callRcu, hgp]
    rw [hcall]
    exact { h with inactive := fun hno => absurd hgp (by simpa using hno) }
  · obtain ⟨_, _, hidle⟩ := h.inactive (by simpa using hgp)
    have hcall : s.toRcu.callRcu b = { s.toRcu with
        pending := s.pending ++ [b], gpActive := true, cpusOut := Fintype.card γ,
        qsPending := fun _ => true } := by
      simp [Rcu.callRcu, hgp]
    rw [hcall]
    refine ⟨h.nesting, nofun, fun _ => ?_, fun c hc => ?_,
      fun c hc => ?_, fun c d hc _ => ?_⟩
    · simp [awaited]
    all_goals
      rw [hidle c] at hc
      cases hc

variable [DecidableEq γ]

theorem Counting.setNesting (h : s.Counting) {n : BitVec 32} {d : ℕ} (hn : n.toInt = d) :
    { s with
      toRcu := { s.toRcu with nesting := update s.nesting c n }
      depth := update s.depth c d }.Counting := by
  refine { h with nesting := fun e => ?_ }
  by_cases he : e = c
  · subst he
    simpa using hn
  · simpa [he] using h.nesting e

theorem Counting.clearQs (h : s.Counting) (hc : s.pc c = .idle) (hq : s.qsPending c = true) :
    { s with toRcu := s.toRcu.clearQs c, pc := update s.pc c .cleared }.Counting := by
  have hgp : s.gpActive = true := by
    by_contra hno
    have := (h.inactive (by simpa using hno)).2.1 c
    simp [hq] at this
  have hlast : ∀ d, update s.pc c .cleared d = .last → s.pc d = .last := by
    intro d hd
    by_cases hdc : d = c
    · subst hdc
      simp at hd
    · simpa [hdc] using hd
  refine ⟨h.nesting, fun hno => absurd (hgp.symm.trans hno) (by simp), fun _ => ?_, fun d hd => ?_,
    fun d hd => h.last d (hlast d hd), fun d d' hd hd' => h.one_last d d' (hlast d hd) (hlast d' hd')⟩
  · refine (h.active hgp).trans ?_
    congr 2
    ext d
    by_cases hd : d = c <;> simp [Rcu.clearQs, hd, hq]
  · by_cases hdc : d = c
    · subst hdc
      simp [Rcu.clearQs]
    · simp only [update_of_ne hdc] at hd
      simpa [Rcu.clearQs, hdc] using h.cleared d hd

theorem Counting.countDown (h : s.Counting) (hc : s.pc c = .cleared) :
    { s with
      toRcu := s.toRcu.countDown.1
      pc := update s.pc c (if s.toRcu.countDown.2 then .last else .idle) }.Counting := by
  have hgp := h.active_of_pc (c := c) (by simp [hc])
  have hmem : c ∈ s.awaited := by simp [hc]
  have hcard := h.active hgp
  have hpos := card_pos.mpr ⟨c, hmem⟩
  -- the count is positive, so nobody was last before
  have hnone : ∀ d, s.pc d ≠ .last := by
    intro d hd
    have := h.last d hd
    omega
  have honly : ∀ d, update s.pc c (if s.toRcu.countDown.2 then .last else .idle) d = .last →
      d = c ∧ s.cpusOut = 1 := by
    intro d hd
    by_cases hdc : d = c
    · subst hdc
      refine ⟨rfl, ?_⟩
      by_contra hne
      simp [Rcu.countDown, hne] at hd
    · rw [update_of_ne hdc] at hd
      exact absurd hd (hnone d)
  refine ⟨h.nesting, fun hno => absurd (hgp.symm.trans hno) (by simp), fun _ => ?_, fun d hd => ?_,
    fun d hd => ?_, fun d d' hd hd' => (honly d hd).1.trans (honly d' hd').1.symm⟩
  · have herase : ({ s with
        toRcu := s.toRcu.countDown.1
        pc := update s.pc c (if s.toRcu.countDown.2 then .last else .idle) } :
          System β γ).awaited = s.awaited.erase c := by
      ext d
      by_cases hdc : d = c
      · subst hdc
        have hq : s.toRcu.countDown.1.qsPending d = false := h.cleared d hc
        simp only [mem_awaited, hq]
        split_ifs <;> simp
      · simp [Rcu.countDown, hdc]
    rw [herase, card_erase_of_mem hmem]
    show s.cpusOut - 1 = _
    omega
  · replace hd : update s.pc c _ d = .cleared := hd
    by_cases hdc : d = c
    · subst hdc
      rw [update_self] at hd
      split_ifs at hd
    · rw [update_of_ne hdc] at hd
      exact h.cleared d hd
  · have := (honly d hd).2
    show s.cpusOut - 1 = 0
    omega

theorem Counting.finish (h : s.Counting) (hc : s.pc c = .last) :
    { s with toRcu := s.toRcu.finish, pc := update s.pc c .idle }.Counting := by
  have hempty := h.awaited_of_last hc
  have hnone : ∀ d, ¬ (s.qsPending d = true ∨ s.pc d = .cleared) := by
    intro d hd
    rw [← mem_awaited, hempty] at hd
    exact absurd hd (notMem_empty d)
  have hidle : ∀ d, update s.pc c .idle d = .idle := by
    intro d
    by_cases hdc : d = c
    · subst hdc
      exact update_self ..
    · rw [update_of_ne hdc]
      cases hd : s.pc d with
      | idle => rfl
      | cleared => exact absurd (.inr hd) (hnone d)
      | last => exact absurd (h.one_last d c hd hc) hdc
  refine ⟨h.nesting, fun _ => ⟨rfl, fun d => ?_, hidle⟩, fun hgp => absurd hgp (by simp [Rcu.finish]),
    fun d hd => ?_, fun d hd => ?_, fun d d' hd _ => ?_⟩
  · exact Bool.eq_false_of_not_eq_true fun hd => hnone d (.inl hd)
  all_goals
    replace hd : update s.pc c .idle d = _ := hd
    rw [hidle d] at hd
    cases hd

end counting

variable [DecidableEq β]

/-- Passed to `call_rcu` and not yet invoked. -/
def inFlight (s : System β γ) (b : β) : Bool :=
  b ∈ s.pending || b ∈ s.done || s.batches.any (b ∈ ·)

variable [DecidableEq γ] [Fintype γ]

section
variable (s : System β γ)

def act : Event β γ → Option (System β γ)
  | .readLock c =>
    some { s with
      toRcu := s.toRcu.readLock c
      depth := update s.depth c (s.depth c + 1) }
  | .readUnlock c =>
    if s.depth c = 0 then none
    else
      some { s with
        toRcu := s.toRcu.readUnlock c
        depth := update s.depth c (s.depth c - 1) }
  | .callRcu b =>
    if s.inFlight b then none
    else
      some { s with
        toRcu := s.toRcu.callRcu b
        outside := update s.outside b fun _ => false }
  | .clearQs c =>
    if s.pc c = .idle ∧ s.quiescent c then
      some { s with toRcu := s.toRcu.clearQs c, pc := update s.pc c .cleared }
    else none
  | .countDown c =>
    if s.pc c = .cleared then
      let r := s.toRcu.countDown
      some { s with
        toRcu := r.1
        pc := update s.pc c (if r.2 then .last else .idle) }
    else none
  | .finish c =>
    if s.pc c = .last then
      some { s with toRcu := s.toRcu.finish, pc := update s.pc c .idle }
    else none
  | .takeBatch =>
    let r := s.toRcu.takeBatch
    some { s with toRcu := r.2, batches := s.batches ++ [r.1] }
  | .invoke i =>
    match s.batches[i]? with
    | some (b :: bs) =>
      some { s with
        batches := s.batches.set i bs
        invoked := s.invoked ++ [(b, s.outside b)] }
    | _ => none

def step (e : Event β γ) : Option (System β γ) := (s.act e).map observe

def Next (e : Event β γ) (s' : System β γ) : Prop := s.step e = some s'

/-- A `call_rcu` in a grace period finds every CPU that has reported outside all read-side sections;
`rcu_nesting` does not overflow. -/
def Allowed : Event β γ → Prop
  | .callRcu _ => s.gpActive = true → ∀ c, s.qsPending c = false → s.depth c = 0
  | .readLock c => s.depth c + 1 < 2 ^ 31
  | _ => True

end

theorem Counting.act {s s' : System β γ} (h : s.Counting) {e : Event β γ} (hok : s.Allowed e)
    (hact : s.act e = some s') : s'.Counting := by
  cases e with
  | readLock c =>
    cases hact
    have hn := h.nesting c
    have hlt : s.depth c + 1 < 2 ^ 31 := hok
    exact h.setNesting (by rw [Word.toInt_add_one (by omega), hn]; rfl)
  | readUnlock c =>
    simp only [System.act] at hact
    split_ifs at hact with hdepth
    cases hact
    have hn := h.nesting c
    exact h.setNesting (by rw [Word.toInt_sub_one (by omega)]; omega)
  | callRcu b =>
    simp only [System.act] at hact
    split_ifs at hact
    cases hact
    exact h.callRcu b _
  | clearQs c =>
    simp only [System.act] at hact
    split_ifs at hact with hq
    cases hact
    have hpending : s.qsPending c = true := (Bool.and_eq_true_iff.mp hq.2).2
    exact h.clearQs hq.1 hpending
  | countDown c =>
    by_cases hc : s.pc c = .cleared
    · simp only [System.act, if_pos hc] at hact
      cases hact
      exact h.countDown hc
    · simp only [System.act, if_neg hc] at hact
      cases hact
  | finish c =>
    simp only [System.act] at hact
    split_ifs at hact with hc
    cases hact
    exact h.finish hc
  | takeBatch =>
    cases hact
    exact { h with }
  | invoke i =>
    simp only [System.act] at hact
    split at hact
    · cases hact
      exact { h with }
    · cases hact

omit [DecidableEq γ] [Fintype γ] in
theorem not_inFlight {b : β} (h : ¬ s.inFlight b) :
    b ∉ s.pending ∧ b ∉ s.done ∧ ∀ bs ∈ s.batches, b ∉ bs := by
  simpa [inFlight, not_or, and_assoc] using h

omit [DecidableEq γ] in
theorem Waited.callRcu (h : s.Waited) {b : β} (hnew : ¬ s.inFlight b)
    (hok : s.gpActive = true → ∀ c, s.qsPending c = false → s.depth c = 0) :
    { s with
      toRcu := s.toRcu.callRcu b
      outside := update s.outside b fun _ => false }.observe.Waited := by
  obtain ⟨hpending, hdone, hbatches⟩ := not_inFlight hnew
  have hother : ∀ b', b' ≠ b → update s.outside b (fun _ => false) b' = s.outside b' :=
    fun b' hb' => update_of_ne hb' _ _
  refine ⟨fun b' hb' c hq => ?_, fun b' hb' c => ?_, fun bs hbs b' hb' c => ?_, h.invoked⟩
  · simp only [System.observe]
    by_cases hgp : s.gpActive
    · have hq' : s.qsPending c = false := by simpa [Rcu.callRcu, hgp, System.observe] using hq
      by_cases hbb : b' = b
      · simp [hok hgp c hq']
      · have hmem : b' ∈ s.pending := by
          simpa [Rcu.callRcu, hgp, System.observe, hbb] using hb'
        rw [hother b' hbb, h.pending b' hmem c hq']
        rfl
    · -- a new grace period has every CPU still to report
      simp [Rcu.callRcu, hgp, System.observe] at hq
  · have hmem : b' ∈ s.done := by
      by_cases hgp : s.gpActive <;> simpa [Rcu.callRcu, hgp, System.observe] using hb'
    have hbb : b' ≠ b := fun heq => hdone (heq ▸ hmem)
    simp only [System.observe]
    rw [hother b' hbb, h.done b' hmem c]
    rfl
  · have hbb : b' ≠ b := fun heq => hbatches bs hbs (heq ▸ hb')
    simp only [System.observe]
    rw [hother b' hbb, h.batches bs hbs b' hb' c]
    rfl

omit [DecidableEq β] [Fintype γ] in
theorem Waited.clearQs (h : s.Waited) (pc : γ → Pc) {c : γ} (hdepth : s.depth c = 0) :
    { s with toRcu := s.toRcu.clearQs c, pc := pc }.observe.Waited := by
  refine ⟨fun b hb d hd => ?_, fun b hb d => ?_, fun bs hbs b hb d => ?_, h.invoked⟩
  · simp only [System.observe]
    by_cases hdc : d = c
    · subst hdc
      simp [hdepth]
    · have hq : s.qsPending d = false := by simpa [Rcu.clearQs, System.observe, hdc] using hd
      rw [h.pending b hb d hq]
      rfl
  · simp only [System.observe]
    rw [h.done b hb d]
    rfl
  · simp only [System.observe]
    rw [h.batches bs hbs b hb d]
    rfl

omit [DecidableEq β] [DecidableEq γ] in
theorem Waited.finish (h : s.Waited) (hc : s.Counting) (pc : γ → Pc) {c : γ}
    (hlast : s.pc c = .last) : { s with toRcu := s.toRcu.finish, pc := pc }.Waited := by
  have hq : ∀ d, s.qsPending d = false := by
    intro d
    by_contra hd
    have hmem : d ∈ s.awaited := by simp [Bool.eq_true_of_not_eq_false hd]
    rw [hc.awaited_of_last hlast] at hmem
    exact absurd hmem (notMem_empty d)
  refine ⟨fun b hb => ?_, fun b hb d => ?_, h.batches, h.invoked⟩
  · exact absurd hb not_mem_nil
  · rcases List.mem_append.mp hb with hb | hb
    · exact h.done b hb d
    · exact h.pending b hb d (hq d)

theorem Waited.act {s s' : System β γ} (h : s.Waited) (hc : s.Counting) {e : Event β γ}
    (hok : s.Allowed e) (hact : s.act e = some s') : s'.observe.Waited := by
  cases e with
  | readLock c =>
    cases hact
    exact Waited.observe { h with }
  | readUnlock c =>
    simp only [System.act] at hact
    split_ifs at hact
    cases hact
    exact Waited.observe { h with }
  | callRcu b =>
    simp only [System.act] at hact
    split_ifs at hact with hnew
    cases hact
    exact h.callRcu hnew hok
  | clearQs c =>
    simp only [System.act] at hact
    split_ifs at hact with hq
    cases hact
    have hdepth := hc.nesting c
    simp only [quiescent, Bool.and_eq_true, Bool.not_eq_true', decide_eq_false_iff_not] at hq
    exact h.clearQs _ (by omega)
  | countDown c =>
    by_cases hpc : s.pc c = .cleared
    · simp only [System.act, if_pos hpc] at hact
      cases hact
      exact Waited.observe { h with }
    · simp only [System.act, if_neg hpc] at hact
      cases hact
  | finish c =>
    simp only [System.act] at hact
    split_ifs at hact with hlast
    cases hact
    exact (h.finish hc _ hlast).observe
  | takeBatch =>
    cases hact
    refine Waited.observe ⟨h.pending, fun b hb => absurd hb not_mem_nil, ?_, h.invoked⟩
    intro bs hbs b hb
    rcases List.mem_append.mp hbs with hbs | hbs
    · exact h.batches bs hbs b hb
    · rw [List.mem_singleton.mp hbs] at hb
      exact h.done b hb
  | invoke i =>
    simp only [System.act] at hact
    split at hact
    case h_2 => cases hact
    case h_1 b bs hbs =>
      cases hact
      have hmem : b :: bs ∈ s.batches := mem_of_getElem? hbs
      refine Waited.observe ⟨h.pending, h.done, ?_, ?_⟩
      · intro l hl b' hb'
        rcases mem_or_eq_of_mem_set hl with hl | rfl
        · exact h.batches l hl b' hb'
        · exact h.batches _ hmem b' (mem_cons_of_mem b hb')
      · intro e he
        rcases List.mem_append.mp he with he | he
        · exact h.invoked e he
        · rw [List.mem_singleton.mp he]
          exact h.batches _ hmem b mem_cons_self

instance (s : System β γ) (e : Event β γ) : Decidable (s.Allowed e) := by
  cases e <;> unfold Allowed <;> infer_instance

end System
end Rcu
end Doppio
