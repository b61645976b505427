import Doppio.Mm.HeapRuns

/-! `kmalloc` and `kfree` of small sizes section by section. A thread can be preempted and moved to
another CPU outside the sections with interrupts off, where the CPU and its magazine are read. -/
namespace Doppio
open Stacks

inductive HeapOp where
  | kmalloc (size : ℕ)
  | kfree (ptr : ℕ)
  deriving DecidableEq

/-- `c` is the CPU that `kmalloc` or `kfree` read, `sw` the one that the swap read; without `sw` an
empty magazine is for a CPU that has none. -/
inductive HeapPc where
  | curcpu
  | test (c : ℕ)
  | getEmpty (c : ℕ) (sw : Option ℕ)
  | magAlloc (c : ℕ) (sw : Option ℕ)
  | reset (c : ℕ) (sw : Option ℕ) (mag : ℕ)
  | refill (c c' mag i : ℕ)
  | stow (c c' mag i obj : ℕ)
  | store (c : ℕ) (sw : Option ℕ) (mag : Option ℕ)
  | recheck (c : ℕ)
  | read (c : ℕ) (again : Bool)
  | use (c : ℕ) (again : Bool) (mag : Option ℕ)
  | swapCpu (c : ℕ)
  | swapRead (c c' : ℕ)
  | swap (c c' : ℕ) (mag : Option ℕ)
  deriving DecidableEq

/-- A further step, or the end of the call with its result. -/
inductive Outcome where
  | goto (pc : HeapPc)
  | done (ptr : Option ℕ)

namespace KmemHeap

section
variable (s : KmemHeap)

/-- `mag->next = d->empty_mags; d->empty_mags = mag; d->empty_count++`. -/
def pushEmpty (k : KmemClass) (mag : ℕ) : KmemHeap :=
  (s.setMag mag fun m => { m with next := (s.depots k).emptyMags }).setDepot k fun d =>
    { d with emptyMags := some mag, emptyCount := d.emptyCount + 1 }

def pushFull (k : KmemClass) (mag : ℕ) : KmemHeap :=
  (s.setMag mag fun m => { m with next := (s.depots k).fullMags }).setDepot k fun d =>
    { d with fullMags := some mag, fullCount := d.fullCount + 1 }

def popFull (k : KmemClass) (mag : ℕ) : KmemHeap :=
  s.setDepot k fun d =>
    { d with fullMags := (s.magazine mag).next, fullCount := d.fullCount - 1 }

/-- The section that uses a magazine: an object is taken or put, or a swap is due. After the swap
`kfree` does not look whether there is room. -/
def useMagazine (c : ℕ) (again : Bool) : HeapOp → Option ℕ → Option (KmemHeap × Outcome)
  | .kmalloc _, none => if again then some (s, .done none) else none
  | .kmalloc _, some mag =>
    if 0 < (s.magazine mag).top then (s.popSlot mag).map fun (s, ptr) => (s, .done ptr)
    else if again then some (s, .done none)
    else some (s, .goto (.swapCpu c))
  | .kfree _, none => none
  | .kfree ptr, some mag =>
    if again ∨ (s.magazine mag).top < kmemMagCapacity then
      (s.pushSlot mag ptr).map fun s => (s, .done none)
    else some (s, .goto (.swapCpu c))

/-- The first section of `kmem_magazine_swap_empty` and `kmem_magazine_swap_full`; the former writes
the CPU's magazine here only if there is a full one. -/
def swapMagazine (k : KmemClass) (c c' : ℕ) : HeapOp → ℕ → KmemHeap × HeapPc
  | .kmalloc _, mag =>
    let s := s.pushEmpty k mag
    match (s.depots k).fullMags with
    | some full => ((s.popFull k full).load c' k (some full), .read c true)
    | none => (s, .getEmpty c (some c'))
  | .kfree _, mag =>
    let s := s.pushFull k mag
    match (s.depots k).emptyMags with
    | some empty => (s.popEmpty k empty, .store c (some c') (some empty))
    | none => (s, .getEmpty c (some c'))

/-- Where a call goes on with an empty magazine; `kmem_magazine_swap_empty` fills it first. -/
def afterReset (op : HeapOp) (c : ℕ) (sw : Option ℕ) (mag : ℕ) : HeapPc :=
  match op, sw with
  | .kmalloc _, some c' => .refill c c' mag 0
  | _, _ => .store c sw (some mag)

/-- One step of a call on `cpu`; `none` is an access through null or outside an array.
`kmem_internal_mag_alloc` is one step. -/
def advance (cpu : ℕ) (op : HeapOp) (k : KmemClass) : HeapPc → Option (KmemHeap × Outcome)
  | .curcpu => some (s, .goto (.test cpu))
  | .test c =>
    match s.magazines c k with
    | some _ => some (s, .goto (.read c false))
    | none => some (s, .goto (.getEmpty c none))
  | .getEmpty c sw =>
    match (s.depots k).emptyMags with
    | some mag => some (s.popEmpty k mag, .goto (.reset c sw mag))
    | none => some (s, .goto (.magAlloc c sw))
  | .magAlloc c sw =>
    match s.kmemInternalMagAlloc with
    | none => none
    | some (s, none) => some (s, .goto (.store c sw none))
    | some (s, some mag) => some (s, .goto (.reset c sw mag))
  | .reset c sw mag =>
    some (s.setMag mag fun m => { m with top := 0, next := none }, .goto (afterReset op c sw mag))
  | .refill c c' mag i =>
    if i < kmemMagCapacity then
      match s.kmemDepotRefill k with
      | none => none
      | some (s, none) => some (s, .goto (.store c (some c') (some mag)))
      | some (s, some obj) => some (s, .goto (.stow c c' mag i obj))
    else some (s, .goto (.store c (some c') (some mag)))
  | .stow c c' mag i obj => (s.pushSlot mag obj).map fun s => (s, .goto (.refill c c' mag (i + 1)))
  | .store c sw mag =>
    match sw with
    | none => some (s.load c k mag, .goto (.recheck c))
    | some c' => some (s.load c' k mag, .goto (.read c true))
  | .recheck c =>
    match s.magazines c k with
    | none => some (s, .done none)
    | some _ => some (s, .goto (.read c false))
  | .read c again => some (s, .goto (.use c again (s.magazines c k)))
  | .use c again mag => s.useMagazine c again op mag
  | .swapCpu c => some (s, .goto (.swapRead c cpu))
  | .swapRead c c' => some (s, .goto (.swap c c' (s.magazines c' k)))
  | .swap c c' mag => mag.map fun mag =>
      ((s.swapMagazine k c c' op mag).1, .goto (s.swapMagazine k c c' op mag).2)

end

variable {s s' : KmemHeap} {k : KmemClass} {r : Option ℕ} {a b : ℕ}

theorem top_setMag_of_ne (hb : b ≠ a) (f : Magazine → Magazine) :
    ((s.setMag a f).magazine b).top = (s.magazine b).top := by
  simp [setMag, hb]

theorem top_setNext (v : Option ℕ) :
    ((s.setMag a fun m => { m with next := v }).magazine b).top = (s.magazine b).top := by
  by_cases hb : b = a
  · subst hb
    simp [setMag]
  · exact top_setMag_of_ne hb _

@[simp] theorem top_pushEmpty : ((s.pushEmpty k a).magazine b).top = (s.magazine b).top :=
  top_setNext _

@[simp] theorem top_pushFull : ((s.pushFull k a).magazine b).top = (s.magazine b).top :=
  top_setNext _

theorem top_linkBatch (s : KmemHeap) (batch b : ℕ) :
    ((s.linkBatch batch).magazine b).top = (s.magazine b).top := by
  have hloop (f : ℕ → ℕ) (v : ℕ → Option ℕ) (n : ℕ) :
      (((List.range n).foldl (fun s i => s.setMag (f i) fun m => { m with next := v i })
        s).magazine b).top = (s.magazine b).top := by
    induction n with
    | zero => rfl
    | succ n ih =>
      rw [List.range_succ, List.foldl_append]
      exact (top_setNext _).trans ih
  exact (top_setNext _).trans (hloop _ _ _)

theorem takeFreeMag_top (h : s.takeFreeMag = some (s', some a)) (hb : b ≠ a) :
    (s'.magazine b).top = (s.magazine b).top := by
  unfold takeFreeMag at h
  cases hf : s.freeMags with
  | none =>
    rw [hf] at h
    cases h
  | some mag =>
    rw [hf] at h
    cases h
    exact top_setMag_of_ne hb _

theorem kmemInternalMagAlloc_top (h : s.kmemInternalMagAlloc = some (s', some a)) (hb : b ≠ a) :
    (s'.magazine b).top = (s.magazine b).top := by
  unfold kmemInternalMagAlloc at h
  cases hf : s.freeMags with
  | some mag =>
    rw [hf] at h
    exact takeFreeMag_top h hb
  | none =>
    rw [hf] at h
    cases hp : s.pmm.pmmAllocPages 0 with
    | none =>
      rw [hp] at h
      cases h
    | some q =>
      obtain ⟨pmm, p⟩ := q
      rw [hp] at h
      cases p with
      | none => cases h
      | some p =>
        have htake := takeFreeMag_top h hb
        have hlink := top_linkBatch { s with pmm := pmm } (Pmm.pageToPhys p) b
        exact htake.trans hlink

theorem pushSlot_top {x : ℕ} (h : s.pushSlot a x = some s') (hb : b ≠ a) :
    (s'.magazine b).top = (s.magazine b).top := by
  unfold pushSlot at h
  simp only at h
  split_ifs at h
  cases h
  exact top_setMag_of_ne hb _

theorem popSlot_top (h : s.popSlot a = some (s', r)) (hb : b ≠ a) :
    (s'.magazine b).top = (s.magazine b).top := by
  unfold popSlot at h
  simp only at h
  split_ifs at h
  cases h
  exact top_setMag_of_ne hb _

theorem cutObject_objSize (h : s.cutObject k = some (s', r)) : s'.objSize = s.objSize := by
  unfold cutObject at h
  simp only [Option.bind_eq_bind, Option.bind_eq_some_iff] at h
  obtain ⟨page, -, h⟩ := h
  cases h
  rfl

end KmemHeap

namespace HeapInv
open KmemHeap Pmm Buddy

variable {s s' : KmemHeap} {tbl : Loaded} {live : ℕ → Option ℕ} {g : HeapLayout} {k : KmemClass}
  {r : Option ℕ} {y : ℕ}

theorem kmemDepotRefill_objSize (h : HeapInv s tbl live g) (he : s.kmemDepotRefill k = some (s', r))
    (hy : live y ≠ none) : s'.objSize (y / pageSize) = s.objSize (y / pageSize) := by
  unfold KmemHeap.kmemDepotRefill at he
  by_cases hrem : (s.depots k).objsRemaining = 0
  · rw [if_pos hrem] at he
    simp only at he
    rcases pmmAllocPages_spec h.stocked.wf (s.depots k).currentOrder with
      ⟨pmm, free', p, hp, ha⟩ | ⟨hp, -⟩
    · obtain ⟨hs, hnone⟩ := h.stocked.pmmAllocPages hp ha
      have hr : Racked { s with pmm := pmm } tbl g.kind g.shelf g.contents :=
        h.racked.congr rfl rfl (fun _ => ⟨rfl, rfl, rfl, rfl⟩) fun _ _ _ => rfl
      have h1 : HeapInv { s with pmm := pmm } tbl live
          { g with free := free', alloc := insert ⟨p, (s.depots k).currentOrder⟩ g.alloc } :=
        { h with racked := hr, stocked := hs }
      have hout : y / pageSize ∉ (Block.mk p (s.depots k).currentOrder).pages :=
        fun hm => hy (h1.live_eq_none (Set.mem_insert _ _) hnone hm)
      rw [hp] at he
      rw [cutObject_objSize he]
      obtain ⟨sizes, fc, hset, -, hsame⟩ := Stocked.kmemSetupSlabPage_eq
        (setDepot { s with pmm := pmm } k fun d => { d with
          currentChunk := Pmm.pageToPhys p
          objsRemaining := (pageSize <<< (s.depots k).currentOrder) / kmemClassSizes k }) p
        (kmemClassSizes k) (s.depots k).currentOrder
      rw [hset]
      exact hsame _ hout
    · rw [hp] at he
      cases he
      rfl
  · rw [if_neg hrem] at he
    rw [cutObject_objSize he]

end HeapInv
end Doppio
