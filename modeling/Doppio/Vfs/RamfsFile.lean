import Doppio.Library.ByteFile
import Doppio.Library.Loop
import Mathlib.Data.BitVec

/-! Regular files of `kernel/vfs/ramfs.c`: an array of 4 KiB blocks that `krealloc` resizes, or a
buffer of the initrd until the first change. -/
namespace Doppio
open List Option Nat

/-- A pointer of the block array, with what it points to. -/
inductive BlockSlot where
  | null
  | block (data : ℕ → BitVec 8)
  /-- not written since allocated, or freed -/
  | invalid

/-- The union at the head of `struct ramfs_node`; the null array is `none`. -/
inductive RamfsData where
  /-- `is_static_buf` is set -/
  | buffer (bytes : List (BitVec 8))
  | blocks (bs : Option (List BlockSlot))

/-- The fields of `struct ramfs_node` for the contents. -/
structure RamfsNode where
  data : RamfsData
  size : ℕ

namespace Ramfs

def blockCount (size : ℕ) : ℕ := (size + 4095) % 2 ^ 64 / 4096

/-- `blocks[i]`; `none`: outside the array or an invalid pointer. -/
def loadPtr (bs : Option (List BlockSlot)) (i : ℕ) : Option (Option (ℕ → BitVec 8)) :=
  match bs.bind (·[i]?) with
  | some .null => some none
  | some (.block data) => some (some data)
  | _ => none

def storePtr (bs : Option (List BlockSlot)) (i : ℕ) (e : BlockSlot) :
    Option (Option (List BlockSlot)) :=
  match bs with
  | some xs => if i < xs.length then some (some (xs.set i e)) else none
  | none => none

/-- `krealloc` to `n` pointers; the new ones are not written. -/
def kreallocBlocks (bs : Option (List BlockSlot)) (n : ℕ) : Option (List BlockSlot) :=
  match bs with
  | none => some (List.replicate n .invalid)
  | some xs => if n = 0 then none else some (xs.take n ++ List.replicate (n - xs.length) .invalid)

def copyIn (data : ℕ → BitVec 8) (off len : ℕ) (src : ℕ → BitVec 8) : Option (ℕ → BitVec 8) :=
  if off + len ≤ 4096 then
    some fun j => if off ≤ j ∧ j < off + len then src (j - off) else data j
  else none

/-- One block of the copy of a static buffer. -/
def unshareTurn (bytes : List (BitVec 8)) (oldSize i : ℕ) (bs : Option (List BlockSlot)) :
    Option (Option (List BlockSlot)) :=
  let offset := i * 4096
  let toCopy := if oldSize < offset + 4096 then oldSize - offset else 4096
  if offset + toCopy ≤ bytes.length then
    storePtr bs i (.block fun j => if j < toCopy then bytes.getD (offset + j) 0 else 0)
  else none

section
variable (node : RamfsNode)

/-- The copy of a static buffer into blocks, in `ramfs_write` and `ramfs_setattr`. -/
def unshare : Option RamfsNode :=
  match node.data with
  | .blocks _ => some node
  | .buffer bytes =>
    let numBlocks := blockCount node.size
    if 0 < numBlocks then do
      let bs ← Loop.forUpTo (unshareTurn bytes node.size) numBlocks
        (some (List.replicate numBlocks .null))
      pure { node with data := .blocks bs }
    else some { node with data := .blocks none }

/-- The block array of a file without static buffer. -/
def blocksOf : Option (List BlockSlot) :=
  match node.data with
  | .blocks bs => bs
  | .buffer _ => none

/-- The array grown to the blocks of the new size. -/
def grow (newSize : ℕ) : Option RamfsNode := do
  let oldCount := blockCount node.size
  let newCount := blockCount newSize
  if oldCount < newCount then
    let bs ← Loop.forUpTo (fun k bs => storePtr bs (oldCount + k) .null) (newCount - oldCount)
      (kreallocBlocks (blocksOf node) newCount)
    pure ⟨.blocks bs, newSize⟩
  else pure { node with size := newSize }

/-- The file grows where a write ends past it. -/
def growTo (newSize : ℕ) : Option RamfsNode :=
  if node.size < newSize then grow node newSize else some node

/-- One turn of `ramfs_write`, with `w` bytes written. -/
def writeTurn (buf : List (BitVec 8)) (off w : ℕ) (bs : Option (List BlockSlot)) :
    Option (Option (List BlockSlot)) := do
  let pos := off + w
  let toCopy := ByteFile.pieceLen 4096 pos (buf.length - w)
  let ptr ← loadPtr bs (pos / 4096)
  -- a new block is zeroed before the copy
  let data ← copyIn (ptr.getD fun _ => 0) (pos % 4096) toCopy fun j => buf.getD (w + j) 0
  storePtr bs (pos / 4096) (.block data)

def ramfsWrite (buf : List (BitVec 8)) (off : ℕ) : Option (RamfsNode × ℕ) := do
  let node ← unshare node
  let node ← growTo node ((off + buf.length) % 2 ^ 64)
  let bs ← Loop.forWhile (fun w => decide (w < buf.length))
    (fun w => w + ByteFile.pieceLen 4096 (off + w) (buf.length - w)) (writeTurn buf off)
    (buf.length + 1) 0 (blocksOf node)
  pure ({ node with data := .blocks bs }, buf.length)

/-- One turn of `ramfs_read`; `dest`: read so far. -/
def readTurn (bs : Option (List BlockSlot)) (off count r : ℕ) (dest : List (BitVec 8)) :
    Option (List (BitVec 8)) := do
  let pos := off + r
  let toCopy := ByteFile.pieceLen 4096 pos (count - r)
  let ptr ← if bs = none then pure none else loadPtr bs (pos / 4096)
  pure (dest ++ (List.range toCopy).map fun j => (ptr.getD fun _ => 0) (pos % 4096 + j))

def ramfsRead (count off : ℕ) : Option (List (BitVec 8)) :=
  if node.size ≤ off then some []
  else
    let count := if node.size < (off + count) % 2 ^ 64 then node.size - off else count
    if count = 0 then some []
    else
      match node.data with
      | .buffer bytes =>
        if off + count ≤ bytes.length then some ((bytes.drop off).take count) else none
      | .blocks bs =>
        Loop.forWhile (fun r => decide (r < count))
          (fun r => r + ByteFile.pieceLen 4096 (off + r) (count - r)) (readTurn bs off count)
          (count + 1) 0 []

def freeTurn (i : ℕ) (bs : Option (List BlockSlot)) : Option (Option (List BlockSlot)) := do
  match ← loadPtr bs i with
  | some _ => storePtr bs i .invalid
  | none => pure bs

/-- The end of the last block that stays is zeroed. -/
def zeroTail (bs : Option (List BlockSlot)) (newSize : ℕ) : Option (Option (List BlockSlot)) :=
  if newSize % 4096 ≠ 0 ∧ bs ≠ none then do
    match ← loadPtr bs (newSize / 4096) with
    | some data =>
      let data ← copyIn data (newSize % 4096) (4096 - newSize % 4096) fun _ => 0
      storePtr bs (newSize / 4096) (.block data)
    | none => pure bs
  else pure bs

/-- Blocks past the new end are freed, the array cut. -/
def cutBlocks (bs : Option (List BlockSlot)) (oldCount newCount : ℕ) :
    Option (Option (List BlockSlot)) :=
  if newCount < oldCount then do
    let bs ← Loop.forUpTo (fun k bs => freeTurn (newCount + k) bs) (oldCount - newCount) bs
    pure (kreallocBlocks bs newCount)
  else some bs

def shrink (newSize : ℕ) : Option RamfsNode := do
  let bs ← cutBlocks (blocksOf node) (blockCount node.size) (blockCount newSize)
  let bs ← zeroTail bs newSize
  pure ⟨.blocks bs, newSize⟩

/-- `ramfs_setattr` of the size. -/
def ramfsSetattr (newSize : ℕ) : Option RamfsNode := do
  let node ← unshare node
  if node.size < newSize then grow node newSize
  else if newSize < node.size then shrink node newSize
  else pure node

end

/-- The array's `count` blocks show the bytes `f`; a null block shows zeros. -/
structure BlocksHold (bs : Option (List BlockSlot)) (count : ℕ) (f : ℕ → BitVec 8) : Prop where
  length : (bs.getD []).length = count
  byte : ∀ i < count, ∃ ptr, loadPtr bs i = some ptr ∧
    ∀ j < 4096, (ptr.getD fun _ => 0) j = f (4096 * i + j)

variable {bs : Option (List BlockSlot)} {count : ℕ} {f g : ℕ → BitVec 8}

theorem blocksHold_none : BlocksHold none 0 f := ⟨rfl, fun i hi => absurd hi (not_lt_zero i)⟩

variable {i : ℕ}

theorem storePtr_of_lt (hi : i < (bs.getD []).length) (e : BlockSlot) :
    storePtr bs i e = some (some ((bs.getD []).set i e)) := by
  cases bs with
  | none => simp at hi
  | some xs => exact if_pos hi

theorem loadPtr_set_self {xs : List BlockSlot} (hi : i < xs.length) (data : ℕ → BitVec 8) :
    loadPtr (some (xs.set i (.block data))) i = some (some data) := by
  simp [loadPtr, getElem?_set_self hi]

theorem loadPtr_set_of_ne {k : ℕ} (hne : k ≠ i) (e : BlockSlot) (hlen : (bs.getD []).length ≠ 0) :
    loadPtr (some ((bs.getD []).set i e)) k = loadPtr bs k := by
  cases bs with
  | none => simp at hlen
  | some xs => simp [loadPtr, getElem?_set_ne hne.symm]

variable {buf : List (BitVec 8)} {off : ℕ}

variable {n : ℕ}

theorem blockCount_eq (h : n < 2 ^ 63) : blockCount n = (n + 4095) / 4096 := by
  unfold blockCount
  omega

theorem loadPtr_kreallocBlocks (hi : i < n) (hlen : i < (bs.getD []).length) :
    loadPtr (kreallocBlocks bs n) i = loadPtr bs i := by
  cases bs with
  | none => simp at hlen
  | some xs =>
    have hlen' : i < xs.length := hlen
    have htake : i < (xs.take n).length := by
      rw [length_take]
      omega
    simp only [loadPtr, kreallocBlocks, if_neg (show n ≠ 0 by omega), bind_some,
      getElem?_append_left htake, getElem?_take_of_lt hi]

theorem length_kreallocBlocks (bs : Option (List BlockSlot)) (n : ℕ) :
    ((kreallocBlocks bs n).getD []).length = n := by
  cases bs with
  | none => simp [kreallocBlocks]
  | some xs =>
    unfold kreallocBlocks
    split_ifs with hn
    · exact hn.symm
    · simp
      omega

section
variable (h : BlocksHold bs count f)
include h

theorem BlocksHold.congr (hfg : ∀ i < 4096 * count, f i = g i) :
    BlocksHold bs count g := by
  refine ⟨h.length, fun i hi => ?_⟩
  obtain ⟨ptr, hptr, hbyte⟩ := h.byte i hi
  exact ⟨ptr, hptr, fun j hj => by rw [hbyte j hj, hfg _ (by omega)]⟩

theorem BlocksHold.store (hi : i < count)
    {data : ℕ → BitVec 8} (hself : ∀ j < 4096, data j = g (4096 * i + j))
    (hother : ∀ k < 4096 * count, k / 4096 ≠ i → f k = g k) :
    ∃ bs', storePtr bs i (.block data) = some bs' ∧ BlocksHold bs' count g := by
  have hlt : i < (bs.getD []).length := by rwa [h.length]
  refine ⟨_, storePtr_of_lt hlt _, ?_, fun k hk => ?_⟩
  · rw [getD_some, length_set, h.length]
  · by_cases hki : k = i
    · subst hki
      exact ⟨some data, loadPtr_set_self hlt data, hself⟩
    · obtain ⟨ptr, hptr, hbyte⟩ := h.byte k hk
      refine ⟨ptr, by rw [loadPtr_set_of_ne hki _ (by omega), hptr], fun j hj => ?_⟩
      rw [hbyte j hj, hother _ (by omega) (by omega)]

theorem BlocksHold.readTurn {len r : ℕ}
    (hfit : off + len ≤ 4096 * count) (hlt : r < len) :
    Ramfs.readTurn bs off len r ((range r).map fun i => f (off + i)) =
      some ((range (r + ByteFile.pieceLen 4096 (off + r) (len - r))).map fun i => f (off + i)) := by
  have hend : (off + r) % 4096 + ByteFile.pieceLen 4096 (off + r) (len - r) ≤ 4096 :=
    ByteFile.mod_add_pieceLen_le (by decide)
  have hidx : (off + r) / 4096 < count := by omega
  obtain ⟨ptr, hptr, hbyte⟩ := h.byte _ hidx
  have hbs : bs ≠ none := by
    rintro rfl
    have hlen : 0 = count := h.length
    omega
  unfold Ramfs.readTurn
  simp only [if_neg hbs, hptr, bind_eq_bind, bind_some]
  rw [range_add, map_append, List.map_map]
  congr 2
  apply map_congr_left
  intro j hj
  rw [mem_range] at hj
  rw [hbyte _ (by omega)]
  show f _ = f (off + (r + j))
  congr 1
  omega

theorem BlocksHold.readLoop {len : ℕ}
    (hfit : off + len ≤ 4096 * count) :
    Loop.forWhile (fun r => decide (r < len))
        (fun r => r + ByteFile.pieceLen 4096 (off + r) (len - r)) (Ramfs.readTurn bs off len)
        (len + 1) 0 [] = some ((range len).map fun i => f (off + i)) := by
  obtain ⟨r, dest, hrun, hleft, hr, hdest⟩ := Loop.forWhile_invariant (n := len + 1)
    (fun r dest => r ≤ len ∧ dest = (range r).map fun i => f (off + i))
    (fun r => len - r) ⟨zero_le _, rfl⟩ (lt_succ_of_le (sub_le _ _))
    (fun r dest (hc : decide (r < len) = true) hP => by
      have hlt : r < len := of_decide_eq_true hc
      have hpos : 0 < ByteFile.pieceLen 4096 (off + r) (len - r) :=
        ByteFile.pieceLen_pos (by decide) (by omega)
      have hle : ByteFile.pieceLen 4096 (off + r) (len - r) ≤ len - r := ByteFile.pieceLen_le_left
      obtain ⟨-, rfl⟩ := hP
      exact ⟨by omega, _, h.readTurn hfit hlt, by omega, rfl⟩)
  have hlen : ¬r < len := of_decide_eq_false hleft
  have heq : r = len := by omega
  rw [hdest, heq] at hrun
  exact hrun

theorem BlocksHold.extend (hn : count < n)
    (hzero : ∀ i, 4096 * count ≤ i → f i = 0) :
    ∃ bs', Loop.forUpTo (fun k bs => storePtr bs (count + k) .null) (n - count)
      (kreallocBlocks bs n) = some bs' ∧ BlocksHold bs' n f := by
  obtain ⟨bs', hrun, hlen, hbyte⟩ := Loop.forUpTo_invariant (n := n - count)
    (fun k bs => (bs.getD []).length = n ∧ ∀ i < count + k, ∃ ptr, loadPtr bs i = some ptr ∧
      ∀ j < 4096, (ptr.getD fun _ => 0) j = f (4096 * i + j))
    ⟨length_kreallocBlocks bs n, fun i hi => by
      rw [loadPtr_kreallocBlocks (by omega) (by rw [h.length]; omega)]
      exact h.byte i hi⟩
    (fun k hk bs hP => by
      obtain ⟨hlen, hbyte⟩ := hP
      have hlt : count + k < (bs.getD []).length := by omega
      refine ⟨_, storePtr_of_lt hlt .null, ?_, fun i hi => ?_⟩
      · rw [getD_some, length_set, hlen]
      · by_cases hik : i = count + k
        · subst hik
          refine ⟨none, by simp [loadPtr, getElem?_set_self hlt], fun j hj => ?_⟩
          exact (hzero _ (by omega)).symm
        · rw [loadPtr_set_of_ne hik _ (by omega)]
          exact hbyte i (by omega))
  refine ⟨bs', hrun, hlen, fun i hi => hbyte i (by omega)⟩

theorem BlocksHold.cut (hn : n ≤ count) :
    ∃ bs', cutBlocks bs count n = some bs' ∧ BlocksHold bs' n f := by
  unfold cutBlocks
  by_cases hlt : n < count
  swap
  · rw [if_neg hlt, show n = count by omega]
    exact ⟨bs, rfl, h⟩
  -- the pointers below `n` stay, and those the loop has not reached are still valid
  let P : ℕ → Option (List BlockSlot) → Prop := fun k bs' =>
    (bs'.getD []).length = count ∧ (∀ i < n, loadPtr bs' i = loadPtr bs i) ∧
      ∀ i, n + k ≤ i → i < count → ∃ ptr, loadPtr bs' i = some ptr
  have h0 : P 0 bs :=
    ⟨h.length, fun _ _ => rfl, fun i _ hi => (h.byte i hi).imp fun _ hp => hp.1⟩
  have hstep : ∀ k < count - n, ∀ bs', P k bs' → ∃ s', freeTurn (n + k) bs' = some s' ∧
      P (k + 1) s' := by
    rintro k hk bs' ⟨hlen, hlow, hhigh⟩
    obtain ⟨ptr, hptr⟩ := hhigh (n + k) (le_refl _) (by omega)
    unfold freeTurn
    rw [hptr]
    cases ptr with
    | none => exact ⟨bs', rfl, hlen, hlow, fun i hi => hhigh i (by omega)⟩
    | some data =>
      have hlt : n + k < (bs'.getD []).length := by omega
      refine ⟨_, storePtr_of_lt hlt .invalid, ?_, fun i hi => ?_, fun i hi hic => ?_⟩
      · rw [getD_some, length_set, hlen]
      · rw [loadPtr_set_of_ne (by omega) _ (by omega), hlow i hi]
      · rw [loadPtr_set_of_ne (by omega) _ (by omega)]
        exact hhigh i (by omega) hic
  obtain ⟨bs', hrun, hlen, hlow, -⟩ := Loop.forUpTo_invariant P h0 hstep
  rw [if_pos hlt, hrun]
  refine ⟨_, rfl, length_kreallocBlocks _ n, fun i hi => ?_⟩
  rw [loadPtr_kreallocBlocks hi (by omega), hlow i hi]
  exact h.byte i (by omega)

theorem BlocksHold.zeroTail (hn : count = (n + 4095) / 4096) :
    ∃ bs', Ramfs.zeroTail bs n = some bs' ∧ BlocksHold bs' count fun i => if i < n then f i else 0 := by
  unfold Ramfs.zeroTail
  by_cases hmod : n % 4096 = 0
  · rw [if_neg fun hc => hc.1 hmod]
    exact ⟨bs, rfl, h.congr fun i hi => (if_pos (by omega)).symm⟩
  · have hidx : n / 4096 < count := by omega
    have hbs : bs ≠ none := by
      rintro rfl
      have hlen : 0 = count := h.length
      omega
    have hend : n % 4096 + (4096 - n % 4096) ≤ 4096 := by omega
    obtain ⟨ptr, hptr, hbyte⟩ := h.byte _ hidx
    rw [if_pos ⟨hmod, hbs⟩, hptr]
    cases ptr with
    | none =>
      refine ⟨bs, rfl, h.congr fun i hi => ?_⟩
      split_ifs with hin
      · rfl
      · have hzero := hbyte (i % 4096) (by omega)
        rw [show 4096 * (n / 4096) + i % 4096 = i by omega] at hzero
        exact hzero.symm
    | some data =>
      simp only [copyIn, if_pos hend]
      refine h.store hidx (fun j hj => ?_) fun k hk hkn => (if_pos (by omega)).symm
      · by_cases hj' : n % 4096 ≤ j
        · rw [if_pos ⟨hj', by omega⟩, if_neg (by omega)]
        · rw [if_neg (fun hc => hj' hc.1), if_pos (by omega)]
          exact hbyte j hj

end

theorem BlocksHold.writeTurn {w : ℕ}
    (h : BlocksHold bs count fun i => if off ≤ i ∧ i < off + w then buf.getD (i - off) 0 else f i)
    (hfit : off + buf.length ≤ 4096 * count) (hlt : w < buf.length) :
    ∃ bs', Ramfs.writeTurn buf off w bs = some bs' ∧ BlocksHold bs' count fun i =>
      if off ≤ i ∧ i < off + (w + ByteFile.pieceLen 4096 (off + w) (buf.length - w)) then
        buf.getD (i - off) 0 else f i := by
  have hend : (off + w) % 4096 + ByteFile.pieceLen 4096 (off + w) (buf.length - w) ≤ 4096 :=
    ByteFile.mod_add_pieceLen_le (by decide)
  have hidx : (off + w) / 4096 < count := by omega
  obtain ⟨ptr, hptr, hbyte⟩ := h.byte _ hidx
  unfold Ramfs.writeTurn
  simp only [hptr, copyIn, if_pos hend]
  generalize ByteFile.pieceLen 4096 (off + w) (buf.length - w) = len at hend ⊢
  refine h.store hidx (fun j hj => ?_) fun k _ hk => ?_
  · split_ifs with h1 h2 h2
    · congr 1
      omega
    · omega
    · rw [hbyte j hj, if_pos (by omega)]
    · rw [hbyte j hj, if_neg (by omega)]
  · have hiff : (off ≤ k ∧ k < off + w) ↔ off ≤ k ∧ k < off + (w + len) := by omega
    simp only [hiff]

theorem BlocksHold.writeLoop (h : BlocksHold bs count f) (hfit : off + buf.length ≤ 4096 * count) :
    ∃ bs', Loop.forWhile (fun w => decide (w < buf.length))
        (fun w => w + ByteFile.pieceLen 4096 (off + w) (buf.length - w)) (Ramfs.writeTurn buf off)
        (buf.length + 1) 0 bs = some bs' ∧ BlocksHold bs' count fun i =>
        if off ≤ i ∧ i < off + buf.length then buf.getD (i - off) 0 else f i := by
  have h0 : BlocksHold bs count fun i =>
      if off ≤ i ∧ i < off + 0 then buf.getD (i - off) 0 else f i :=
    h.congr fun i _ => (if_neg (by omega)).symm
  obtain ⟨w, bs', hrun, hleft, hw, h'⟩ := Loop.forWhile_invariant (n := buf.length + 1)
    (fun w bs => w ≤ buf.length ∧ BlocksHold bs count fun i =>
      if off ≤ i ∧ i < off + w then buf.getD (i - off) 0 else f i)
    (fun w => buf.length - w) ⟨zero_le _, h0⟩ (lt_succ_of_le (sub_le _ _))
    (fun w bs (hc : decide (w < buf.length) = true) hP => by
      have hlt : w < buf.length := of_decide_eq_true hc
      have hpos : 0 < ByteFile.pieceLen 4096 (off + w) (buf.length - w) :=
        ByteFile.pieceLen_pos (by decide) (by omega)
      have hle : ByteFile.pieceLen 4096 (off + w) (buf.length - w) ≤ buf.length - w :=
        ByteFile.pieceLen_le_left
      obtain ⟨bs', hturn, h'⟩ := hP.2.writeTurn hfit hlt
      exact ⟨by omega, bs', hturn, by omega, h'⟩)
  have hlen : ¬w < buf.length := of_decide_eq_false hleft
  have heq : w = buf.length := by omega
  rw [heq] at h'
  exact ⟨bs', hrun, h'⟩

theorem unshareLoop_spec {bytes : List (BitVec 8)} (hlen : bytes.length < 2 ^ 63) :
    ∃ bs, Loop.forUpTo (unshareTurn bytes bytes.length) (blockCount bytes.length)
        (some (replicate (blockCount bytes.length) .null)) = some bs ∧
      BlocksHold bs (blockCount bytes.length) fun i => bytes.getD i 0 := by
  rw [blockCount_eq hlen]
  generalize hcount : (bytes.length + 4095) / 4096 = count
  let P : ℕ → Option (List BlockSlot) → Prop := fun k bs =>
    (bs.getD []).length = count ∧ ∀ i < k, ∃ ptr, loadPtr bs i = some ptr ∧
      ∀ j < 4096, (ptr.getD fun _ => 0) j = bytes.getD (4096 * i + j) 0
  have h0 : P 0 (some (replicate count .null)) :=
    ⟨length_replicate, fun i hi => absurd hi (not_lt_zero i)⟩
  have hstep : ∀ k < count, ∀ bs, P k bs →
      ∃ bs', unshareTurn bytes bytes.length k bs = some bs' ∧ P (k + 1) bs' := by
    rintro k hk bs ⟨hbs, hbyte⟩
    have hlt : k < (bs.getD []).length := by omega
    unfold unshareTurn
    simp only
    generalize htc : (if bytes.length < k * 4096 + 4096 then bytes.length - k * 4096 else 4096)
      = toCopy
    have hle : k * 4096 + toCopy ≤ bytes.length := by
      rw [← htc]
      split_ifs <;> omega
    rw [if_pos hle]
    refine ⟨_, storePtr_of_lt hlt _, ?_, fun i hi => ?_⟩
    · rw [getD_some, length_set, hbs]
    · by_cases hik : i = k
      · subst hik
        refine ⟨_, loadPtr_set_self hlt _, fun j hj => ?_⟩
        rw [getD_some]
        split_ifs with hj'
        · rw [mul_comm]
        · rw [getD_eq_default _ _ (by split_ifs at htc <;> omega)]
      · rw [loadPtr_set_of_ne hik _ (by omega)]
        exact hbyte i (by omega)
  obtain ⟨bs, hrun, hbs, hbyte⟩ := Loop.forUpTo_invariant P h0 hstep
  exact ⟨bs, hrun, hbs, hbyte⟩

/-- The blocks show the file `xs`, with zeros in the slack. -/
def BlocksShow (node : RamfsNode) (xs : List (BitVec 8)) : Prop :=
  ∃ bs, node = ⟨.blocks bs, xs.length⟩ ∧ BlocksHold bs (blockCount xs.length) fun i => xs.getD i 0

def Represents (node : RamfsNode) (xs : List (BitVec 8)) : Prop :=
  node = ⟨.buffer xs, xs.length⟩ ∨ BlocksShow node xs

variable {node : RamfsNode} {xs : List (BitVec 8)}

theorem BlocksShow.grow (h : BlocksShow node xs) (hle : xs.length ≤ n) (hn : n < 2 ^ 63) :
    ∃ node', grow node n = some node' ∧ BlocksShow node' (ByteFile.resize xs n) := by
  obtain ⟨bs, rfl, hbs⟩ := h
  have hold := blockCount_eq (n := xs.length) (by omega)
  have hnew := blockCount_eq hn
  have hsame : ∀ i, (ByteFile.resize xs n).getD i 0 = xs.getD i 0 := by
    intro i
    rw [ByteFile.getD_resize]
    split_ifs with hi
    · rfl
    · rw [getD_eq_default _ _ (by omega)]
  unfold Ramfs.grow
  simp only [BlocksShow, ByteFile.length_resize, hsame]
  split_ifs with hlt
  · obtain ⟨bs', hrun, hbs'⟩ := hbs.extend hlt fun i hi =>
      getD_eq_default _ _ (by omega)
    simp only [blocksOf, hrun]
    exact ⟨_, rfl, bs', rfl, hbs'⟩
  · refine ⟨_, rfl, bs, rfl, ?_⟩
    rwa [show blockCount n = blockCount xs.length by omega]

theorem BlocksShow.growTo (h : BlocksShow node xs) (hn : n < 2 ^ 63) :
    ∃ node', growTo node n = some node' ∧
      BlocksShow node' (ByteFile.resize xs (max xs.length n)) := by
  have hsize : node.size = xs.length := by
    obtain ⟨bs, rfl, -⟩ := h
    rfl
  unfold Ramfs.growTo
  rw [hsize]
  split_ifs with hlt
  · rw [max_eq_right (le_of_lt hlt)]
    exact h.grow (le_of_lt hlt) hn
  · refine ⟨node, rfl, ?_⟩
    rw [max_eq_left (Nat.le_of_not_lt hlt), ByteFile.resize_length]
    exact h

theorem BlocksShow.shrink (h : BlocksShow node xs) (hlen : xs.length < 2 ^ 63)
    (hlt : n < xs.length) :
    ∃ node', shrink node n = some node' ∧ BlocksShow node' (ByteFile.resize xs n) := by
  obtain ⟨bs, rfl, hbs⟩ := h
  have hold := blockCount_eq hlen
  have hnew := blockCount_eq (n := n) (by omega)
  obtain ⟨bs', hcut, hbs'⟩ := hbs.cut (n := blockCount n) (by omega)
  obtain ⟨bs'', hzero, hbs''⟩ := hbs'.zeroTail hnew
  unfold Ramfs.shrink
  simp only [blocksOf, bind_eq_bind, hcut, bind_some, hzero]
  refine ⟨_, rfl, bs'', ?_, ?_⟩
  · rw [ByteFile.length_resize]
  · simp only [ByteFile.length_resize, ByteFile.getD_resize]
    exact hbs''

section
variable (h : Represents node xs)
include h

section
variable (hlen : xs.length < 2 ^ 63)
include hlen

theorem Represents.unshare :
    ∃ node', unshare node = some node' ∧ BlocksShow node' xs := by
  rcases h with rfl | ⟨bs, rfl, hbs⟩
  · unfold Ramfs.unshare
    simp only
    split_ifs with hpos
    · obtain ⟨bs, hrun, hbs⟩ := unshareLoop_spec hlen
      rw [hrun]
      exact ⟨_, rfl, bs, rfl, hbs⟩
    · refine ⟨_, rfl, none, rfl, ?_⟩
      rw [Nat.eq_zero_of_not_pos hpos]
      exact blocksHold_none
  · exact ⟨_, rfl, bs, rfl, hbs⟩

theorem Represents.write
    (hoff : off + buf.length < 2 ^ 63) :
    ∃ node', ramfsWrite node buf off = some (node', buf.length) ∧
      Represents node' (ByteFile.write xs buf off) := by
  obtain ⟨node1, hun, h1⟩ := h.unshare hlen
  have hmod : (off + buf.length) % 2 ^ 64 = off + buf.length := mod_eq_of_lt (by omega)
  obtain ⟨node2, hg, bs, rfl, hbs⟩ := h1.growTo hoff
  rw [ByteFile.length_resize, blockCount_eq (by omega)] at hbs
  have hfit : off + buf.length ≤ 4096 * ((max xs.length (off + buf.length) + 4095) / 4096) := by
    omega
  obtain ⟨bs', hloop, hbs'⟩ := hbs.writeLoop hfit
  unfold ramfsWrite
  simp only [hun, bind_eq_bind, bind_some, hmod, hg, blocksOf, hloop]
  refine ⟨_, rfl, .inr ⟨bs', ?_, ?_⟩⟩
  · rw [ByteFile.length_resize, ByteFile.length_write]
  · rw [ByteFile.length_write, blockCount_eq (by omega)]
    refine hbs'.congr fun i _ => ?_
    rw [ByteFile.getD_write, ByteFile.getD_resize]
    split_ifs with hin hi
    · rfl
    · rfl
    · rw [getD_eq_default _ _ (by omega)]

theorem Represents.read {count : ℕ}
    (hoff : off + count < 2 ^ 63) :
    ramfsRead node count off = some (ByteFile.read xs count off) := by
  have hmod : (off + count) % 2 ^ 64 = off + count := mod_eq_of_lt (by omega)
  have hsize : node.size = xs.length := by
    rcases h with rfl | ⟨bs, rfl, -⟩ <;> rfl
  unfold ramfsRead
  simp only [hsize, hmod]
  by_cases hend : xs.length ≤ off
  · rw [if_pos hend, ByteFile.read, drop_eq_nil_of_le hend, take_nil]
  · rw [if_neg hend, ByteFile.read_eq_map]
    have hclip : (if xs.length < off + count then xs.length - off else count) =
        min count (xs.length - off) := by
      split_ifs <;> omega
    rw [hclip]
    generalize hc : min count (xs.length - off) = c
    by_cases hzero : c = 0
    · rw [hzero]
      rfl
    · rw [if_neg hzero]
      rcases h with rfl | ⟨bs, rfl, hbs⟩
      · simp only
        rw [if_pos (by omega), ← ByteFile.read, ByteFile.read_eq_map,
          show min c (xs.length - off) = c by omega]
      · rw [blockCount_eq hlen] at hbs
        exact hbs.readLoop (by omega)

theorem Represents.setattr (hn : n < 2 ^ 63) :
    ∃ node', ramfsSetattr node n = some node' ∧ Represents node' (ByteFile.resize xs n) := by
  obtain ⟨node1, hun, h1⟩ := h.unshare hlen
  have hsize : node1.size = xs.length := by
    obtain ⟨bs, rfl, -⟩ := h1
    rfl
  unfold ramfsSetattr
  simp only [hun, bind_eq_bind, bind_some, hsize]
  split_ifs with hgrow hshrink
  · obtain ⟨node', hrun, h'⟩ := h1.grow (le_of_lt hgrow) hn
    exact ⟨node', hrun, .inr h'⟩
  · obtain ⟨node', hrun, h'⟩ := h1.shrink hlen hshrink
    exact ⟨node', hrun, .inr h'⟩
  · have heq : n = xs.length := by omega
    refine ⟨node1, rfl, .inr ?_⟩
    rw [heq, ByteFile.resize_length]
    exact h1

end

end

inductive Op where
  | write (buf : List (BitVec 8)) (off : ℕ)
  | read (count off : ℕ)
  | setattr (newSize : ℕ)

inductive Result where
  | wrote (count : ℕ)
  | bytes (bs : List (BitVec 8))
  | done
  deriving DecidableEq

def Op.InRange : Op → Prop
  | .write buf off => off + buf.length < 2 ^ 63
  | .read count off => off + count < 2 ^ 63
  | .setattr newSize => newSize < 2 ^ 63

def step (node : RamfsNode) : Op → Option (RamfsNode × Result)
  | .write buf off => (ramfsWrite node buf off).map fun r => (r.1, .wrote r.2)
  | .read count off => (ramfsRead node count off).map fun bs => (node, .bytes bs)
  | .setattr newSize => (ramfsSetattr node newSize).map fun node => (node, .done)

def run (node : RamfsNode) : List Op → Option (RamfsNode × List Result)
  | [] => some (node, [])
  | op :: ops => do
    let (node, r) ← step node op
    let (node, rs) ← run node ops
    pure (node, r :: rs)

/-- The same calls on an array of bytes. -/
def fileStep (xs : List (BitVec 8)) : Op → List (BitVec 8) × Result
  | .write buf off => (ByteFile.write xs buf off, .wrote buf.length)
  | .read count off => (xs, .bytes (ByteFile.read xs count off))
  | .setattr newSize => (ByteFile.resize xs newSize, .done)

def fileRun (xs : List (BitVec 8)) : List Op → List (BitVec 8) × List Result
  | [] => (xs, [])
  | op :: ops =>
    let (xs, r) := fileStep xs op
    let (xs, rs) := fileRun xs ops
    (xs, r :: rs)

def createdFile : RamfsNode := ⟨.blocks none, 0⟩

/-- A file of the initrd, from `vfs_load_initrd`. -/
def initrdFile (bytes : List (BitVec 8)) : RamfsNode := ⟨.buffer bytes, bytes.length⟩

theorem createdFile_represents : Represents createdFile [] := .inr ⟨none, rfl, blocksHold_none⟩

theorem initrdFile_represents (bytes : List (BitVec 8)) : Represents (initrdFile bytes) bytes :=
  .inl rfl

theorem Represents.step (h : Represents node xs) (hlen : xs.length < 2 ^ 63) {op : Op}
    (hop : op.InRange) :
    (∃ node', step node op = some (node', (fileStep xs op).2) ∧
      Represents node' (fileStep xs op).1) ∧ (fileStep xs op).1.length < 2 ^ 63 := by
  cases op with
  | write buf off =>
    obtain ⟨node', hrun, h'⟩ := h.write hlen hop
    have hoff : off + buf.length < 2 ^ 63 := hop
    refine ⟨⟨node', by simp only [Ramfs.step, hrun]; rfl, h'⟩, ?_⟩
    show (ByteFile.write xs buf off).length < 2 ^ 63
    rw [ByteFile.length_write]
    omega
  | read count off =>
    refine ⟨⟨node, ?_, h⟩, hlen⟩
    simp only [Ramfs.step, h.read hlen hop]
    rfl
  | setattr newSize =>
    obtain ⟨node', hrun, h'⟩ := h.setattr hlen hop
    refine ⟨⟨node', by simp only [Ramfs.step, hrun]; rfl, h'⟩, ?_⟩
    show (ByteFile.resize xs newSize).length < 2 ^ 63
    rw [ByteFile.length_resize]
    exact hop

theorem Represents.run (h : Represents node xs) (hlen : xs.length < 2 ^ 63) {ops : List Op}
    (hops : ∀ op ∈ ops, op.InRange) :
    ∃ node', run node ops = some (node', (fileRun xs ops).2) ∧
      Represents node' (fileRun xs ops).1 := by
  induction ops generalizing node xs with
  | nil => exact ⟨node, rfl, h⟩
  | cons op ops ih =>
    obtain ⟨⟨node1, hstep, h1⟩, hlen1⟩ := h.step hlen (hops op (mem_cons_self ..))
    obtain ⟨node2, hrun, h2⟩ := ih h1 hlen1 fun op hop => hops op (mem_cons_of_mem _ hop)
    refine ⟨node2, ?_, h2⟩
    unfold Ramfs.run
    simp only [hstep, hrun, bind_eq_bind, bind_some]
    rfl

/-- A file, new or from the initrd, behaves as an array of bytes: the calls stay inside the blocks
and return what the array gives. -/
theorem run_fileRun {ops : List Op} (hops : ∀ op ∈ ops, op.InRange) :
    (∃ node, run createdFile ops = some (node, (fileRun [] ops).2) ∧
      Represents node (fileRun [] ops).1) ∧ ∀ bytes : List (BitVec 8), bytes.length < 2 ^ 63 →
        ∃ node, run (initrdFile bytes) ops = some (node, (fileRun bytes ops).2) ∧
          Represents node (fileRun bytes ops).1 :=
  ⟨createdFile_represents.run (by decide) hops,
    fun bytes hlen => (initrdFile_represents bytes).run hlen hops⟩

theorem run_fileRun_regrown :
    ∃ node, run (initrdFile [1, 2]) [.write [7] 3, .setattr 0, .setattr 2, .read 5 0] =
      some (node, [.wrote 1, .done, .done, .bytes [0, 0]]) := by
  have hops : ∀ op ∈ [Op.write [7] 3, .setattr 0, .setattr 2, .read 5 0], op.InRange := by
    simp [Op.InRange]
  obtain ⟨node, hrun, -⟩ := (run_fileRun hops).2 [1, 2] (by decide)
  exact ⟨node, hrun⟩

end Ramfs
end Doppio
