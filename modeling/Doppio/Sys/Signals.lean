import Doppio.Library.Bytes
import Mathlib.Data.BitVec

/-! Signal delivery: the frame that `handle_signal_dispatch` puts on the user stack, and the way
back through `sys_rt_sigreturn` and the exit of system calls. -/
namespace Doppio.Signal
open Bytes BitVec Option
open Function

/-- The words of `struct trapframe`. -/
abbrev Trapframe := Fin 22 → BitVec 64

abbrev r11 : Fin 22 := 4
abbrev rdi : Fin 22 := 9
abbrev rcx : Fin 22 := 12
abbrev rax : Fin 22 := 14
abbrev intNo : Fin 22 := 15
abbrev errCode : Fin 22 := 16
abbrev rip : Fin 22 := 17
abbrev cs : Fin 22 := 18
abbrev rflags : Fin 22 := 19
abbrev rsp : Fin 22 := 20
abbrev ss : Fin 22 := 21

structure SigAction where
  handler : BitVec 64
  restorer : BitVec 64
  mask : BitVec 64

structure Thread where
  mask : BitVec 64
  pending : BitVec 64
  actions : Fin 32 → SigAction

/-- User memory, and the ranges on which the user copies succeed. -/
structure Memory where
  byte : BitVec 64 → BitVec 8
  mapped : BitVec 64 → ℕ → Bool

namespace Memory

def write (m : Memory) (addr : BitVec 64) (n : ℕ) (src : Buf) : Memory :=
  { m with byte := fun a => if (a - addr).toNat < n then src (a - addr).toNat else m.byte a }

/-- The word `k` of a structure at `addr`. -/
def word (m : Memory) (addr : BitVec 64) (k : ℕ) : BitVec 64 :=
  BitVec.ofNat 64 (le (fun i => m.byte (addr + BitVec.ofNat 64 i)) (8 * k) 8)

end Memory

/-- The words of `struct sigframe`, the last two the trampoline `mov rax, 15; syscall`. -/
def frameWord (tf : Trapframe) (mask : BitVec 64) (k : ℕ) : BitVec 64 :=
  if h : k < 22 then tf ⟨k, h⟩ else if k = 22 then mask
  else if k = 23 then 0x0f0000000fc0c748 else 5

def wordByte (w : BitVec 64) (i : ℕ) : BitVec 8 := BitVec.ofNat 8 (w.toNat / 256 ^ i)

def frameByte (tf : Trapframe) (mask : BitVec 64) (i : ℕ) : BitVec 8 :=
  wordByte (frameWord tf mask (i / 8)) (i % 8)

def frameAddr (sp : BitVec 64) : BitVec 64 := (sp - 200) &&& ~~~15#64

section
variable (th : Thread)

/-- `none`: a copy fails and the process exits. -/
def handleSignalDispatch (m : Memory) (tf : Trapframe) (sig : Fin 32)
    (act : SigAction) : Option (Thread × Memory × Trapframe) :=
  let addr := frameAddr (tf rsp)
  if m.mapped addr 200 ∧ m.mapped (addr - 8) 8 then
    let ret := if act.restorer ≠ 0 then act.restorer else addr + 184
    some ({ th with
        mask := th.mask ||| act.mask
        pending := th.pending &&& ~~~(1#64 <<< sig.val) },
      (m.write addr 200 (frameByte tf th.mask)).write (addr - 8) 8 (wordByte ret),
      update (update (update tf rip act.handler) rdi (BitVec.ofNat 64 (sig.val + 1))) rsp (addr - 8))
  else none

/-- The default action ends the process. -/
def fatal : List ℕ := [9, 15, 2, 3, 1, 11, 4, 8, 7, 6]

def Thread.next : Option (Fin 32) :=
  (List.finRange 32).find? fun i => (th.pending &&& ~~~th.mask).getLsbD i

/-- `none`: the process exits. -/
def checkSignals (m : Memory) (tf : Trapframe) : Option (Thread × Memory × Trapframe) :=
  if tf cs &&& 3 ≠ 3 then some (th, m, tf) else
  match th.next with
  | none => some (th, m, tf)
  | some i =>
    let dropped := { th with pending := th.pending &&& ~~~(1#64 <<< i.val) }
    if (th.actions i).handler = 0 then
      if i.val + 1 ∈ fatal then none else some (dropped, m, tf)
    else if (th.actions i).handler = 1 then some (dropped, m, tf)
    else handleSignalDispatch th m tf i (th.actions i)

/-- `none`: the process exits. -/
def sysRtSigreturn (m : Memory) (tf : Trapframe) : Option (Thread × Trapframe) :=
  let frame : Trapframe := fun r => m.word (tf rsp) r
  if m.mapped (tf rsp) 200 ∧ frame cs &&& 3 = 3 ∧ frame ss &&& 3 = 3 then
    some ({ th with mask := m.word (tf rsp) 22 }, frame)
  else none

/-- `.syscall_exit`: `sysretq` takes `rip` from `rcx`, the flags from `r11` and the selectors of
`MSR_STAR`. -/
def sysret (tf : Trapframe) : Trapframe := fun r =>
  if r = rcx then tf rip else if r = r11 then tf rflags
  else if r = rflags then tf rflags &&& 0x3c7fd7 ||| 2
  else if r = cs then 0x2b else if r = ss then 0x23 else tf r

/-- The system call with its way back to user mode. -/
def sigreturn (m : Memory) (tf : Trapframe) : Option Trapframe :=
  (sysRtSigreturn th m tf).bind fun x => (checkSignals x.1 m x.2).map fun y => sysret y.2.2

/-- Ring 3 with the user selectors, interrupts on, I/O privilege level 0, a user address. -/
def UserMode (u : Trapframe) : Prop :=
  u cs = 0x2b ∧ u ss = 0x23 ∧ u rflags &&& 0x3200 = 0x200 ∧ (u rip).toNat < 2 ^ 47

instance (u : Trapframe) : Decidable (UserMode u) := inferInstanceAs (Decidable (_ ∧ _))

/-- The handler of a pending signal, or where the frame says. -/
def Thread.target (ip : BitVec 64) : BitVec 64 :=
  match th.next with
  | none => ip
  | some i => if 1 < (th.actions i).handler then (th.actions i).handler else ip

end

variable {th th₁ : Thread} {m m₁ : Memory} {tf tf₁ : Trapframe} {sig : Fin 32} {act : SigAction}

theorem dispatch_regs (h : handleSignalDispatch th m tf sig act = some (th₁, m₁, tf₁)) :
    tf₁ rip = act.handler ∧ tf₁ rflags = tf rflags ∧ tf₁ rsp = frameAddr (tf rsp) - 8 := by
  obtain ⟨-, h⟩ := ite_none_right_eq_some.mp h
  cases h
  exact ⟨rfl, rfl, rfl⟩

theorem checkSignals_regs (h : checkSignals th m tf = some (th₁, m₁, tf₁))
    (hcs : tf cs &&& 3 = 3) : tf₁ rip = th.target (tf rip) ∧ tf₁ rflags = tf rflags := by
  unfold checkSignals at h
  unfold Thread.target
  rw [if_neg (not_not.mpr hcs)] at h
  cases hn : th.next with
  | none =>
    simp only [hn] at h
    cases h
    exact ⟨rfl, rfl⟩
  | some i =>
    simp only [hn] at h ⊢
    split_ifs at h with h0 _ h1
    · cases h
      simp [h0]
    · cases h
      simp [h1]
    · obtain ⟨hr, hf, -⟩ := dispatch_regs h
      rw [if_pos (by bv_omega), hr]
      exact ⟨rfl, hf⟩

/-- After a `sys_rt_sigreturn` that returns, user mode is as it should be just when the frame has
interrupts on and privilege level 0, and the program goes on at a user address. -/
theorem sigreturn_userMode_iff {u : Trapframe} (h : sigreturn th m tf = some u) :
    UserMode u ↔ m.word (tf rsp) rflags &&& 0x3200 = 0x200 ∧
      (Thread.target { th with mask := m.word (tf rsp) 22 } (m.word (tf rsp) rip)).toNat < 2 ^ 47 := by
  unfold sigreturn sysRtSigreturn at h
  simp only [bind_eq_some_iff, ite_none_right_eq_some, map_eq_some_iff] at h
  obtain ⟨x, ⟨hx, hframe⟩, y, hy, rfl⟩ := h
  cases hframe
  obtain ⟨hr, hf⟩ := checkSignals_regs hy hx.2.1
  have hflags : (y.2.2 rflags &&& 0x3c7fd7 ||| 2) &&& 0x3200 = y.2.2 rflags &&& 0x3200 := by
    rw [and_or_distrib_right, BitVec.and_assoc]
    simp
  have hu : UserMode (sysret y.2.2) ↔
      (y.2.2 rflags &&& 0x3c7fd7 ||| 2) &&& 0x3200 = 0x200 ∧ (y.2.2 rip).toNat < 2 ^ 47 :=
    ⟨fun hu => hu.2.2, fun hu => ⟨rfl, rfl, hu⟩⟩
  rw [hu, hflags, hf, hr]

def idle : Thread := ⟨0, 0, fun _ => ⟨0, 0, 0⟩⟩

/-- A stack at address 0 with a frame that asks for these flags. -/
def forged (flags : BitVec 64) : Memory :=
  Memory.write ⟨0, fun _ _ => true⟩ 0 200
    (frameByte (update (update (update 0 cs 0x2b) ss 0x23) rflags flags) 0)

theorem sigreturn_userMode_plain : ∃ u, sigreturn idle (forged 0x202) 0 = some u ∧ UserMode u := by
  obtain ⟨u, hu⟩ : ∃ u, sigreturn idle (forged 0x202) 0 = some u := ⟨_, rfl⟩
  exact ⟨u, hu, (sigreturn_userMode_iff hu).mpr (by decide +kernel)⟩

/-- A frame with level 3 and interrupts off. -/
theorem sigreturn_keeps_iopl : ∃ u, sigreturn idle (forged 0x3002) 0 = some u ∧
    u rflags = 0x3002 ∧ ¬ UserMode u :=
  ⟨_, rfl, by decide +kernel, by decide +kernel⟩

theorem le_frame (tf : Trapframe) (mask : BitVec 64) (k : ℕ) :
    le (frameByte tf mask) (8 * k) 8 = (frameWord tf mask k).toNat := by
  refine le_digits (frameWord tf mask k).isLt fun i hi => ?_
  unfold frameByte
  rw [show (8 * k + i) / 8 = k by omega, show (8 * k + i) % 8 = i by omega]
  rfl

theorem word_frame {addr mask : BitVec 64} {k : ℕ} (hk : k < 25)
    (h : ∀ j < 200, m.byte (addr + BitVec.ofNat 64 j) = frameByte tf mask j) :
    m.word addr k = frameWord tf mask k := by
  unfold Memory.word
  rw [le_congr fun j _ hj => h j (by omega), le_frame, ofNat_toNat, setWidth_eq]

/-- How the kernel was entered, and what a system call makes of the trapframe. -/
inductive Entry where
  | interrupt (vector err : BitVec 64)
  | syscall (ret : BitVec 64)
  | sigreturn (frame : Trapframe)
  | execve (entry sp : BitVec 64)

/-- The words that `syscall_entry` does not store. -/
def unsaved : List (Fin 22) := [rcx, r11, intNo, errCode]

/-- The trapframe at the return to a program with registers `u`; `stale` was on the kernel stack. -/
def Entry.frame (stale u : Trapframe) : Entry → Trapframe
  | .interrupt vector err => update (update u intNo vector) errCode err
  | .syscall ret => fun r =>
    if r ∈ unsaved then stale r else if r = rax then ret
    else if r = cs then 0x2b else if r = ss then 0x23 else u r
  | .sigreturn frame => frame
  | .execve entry sp => fun r =>
    if r = rip ∨ r = rcx then entry else if r = rsp then sp
    else if r = cs then 0x2b else if r = ss then 0x23
    else if r = r11 ∨ r = rflags then 0x202 else 0

def Entry.leaky : Entry → Bool
  | .syscall _ => true
  | _ => false

/-- Two runs deliver equal frames from the same registers just when the trapframe is filled, or the
kernel stacks agree where it is not. -/
theorem frame_eq_iff (e : Entry) (stale stale' u : Trapframe) (mask : BitVec 64) :
    (∀ i < 200, frameByte (e.frame stale u) mask i = frameByte (e.frame stale' u) mask i) ↔
      (e.leaky → ∀ r ∈ unsaved, stale r = stale' r) := by
  constructor
  · intro h he r hr
    have hword : frameWord (e.frame stale u) mask r = frameWord (e.frame stale' u) mask r := by
      apply eq_of_toNat_eq
      rw [← le_frame, ← le_frame]
      exact le_congr fun i _ hi => h i (by omega)
    cases e with
    | syscall ret => simpa [frameWord, Entry.frame, hr] using hword
    | _ => cases he
  · intro h i _
    have hsame : e.frame stale u = e.frame stale' u := by
      cases e with
      | syscall ret =>
        funext r
        simp only [Entry.frame]
        split_ifs with hr <;> first | rfl | exact h rfl r hr
      | _ => rfl
    rw [hsame]

/-- One word of the kernel stack is read in user memory. -/
theorem frame_shows_kernel_stack : frameByte (Entry.frame (update 0 rcx 7) 0 (.syscall 0)) 0 96 ≠
    frameByte (Entry.frame 0 0 (.syscall 0)) 0 96 := by
  decide +kernel

/-- What a handler that starts with the stack pointer `sp` does to memory until the system call after
its return: it keeps the frame and what is above, and the signals that interrupt it are delivered
further down. -/
inductive HandlerRun : ℕ → Memory → Memory → Prop
  | code {sp : ℕ} {m : Memory} (byte : BitVec 64 → BitVec 8)
      (h : ∀ a, sp + 8 ≤ a.toNat → byte a = m.byte a) : HandlerRun sp m { m with byte := byte }
  | nested {sp : ℕ} {m m₁ m₂ : Memory} {th th₁ : Thread} {tf tf₁ : Trapframe} {sig : Fin 32}
      {act : SigAction} (hsp : (tf rsp).toNat ≤ sp + 8) (hroom : 216 ≤ (tf rsp).toNat)
      (hd : handleSignalDispatch th m tf sig act = some (th₁, m₁, tf₁))
      (hrun : HandlerRun (tf₁ rsp).toNat m₁ m₂) : HandlerRun sp m m₂
  | trans {sp : ℕ} {m m₁ m₂ : Memory} (h : HandlerRun sp m m₁) (h' : HandlerRun sp m₁ m₂) :
      HandlerRun sp m m₂

theorem frameAddr_eq (sp : BitVec 64) :
    frameAddr sp = sp - 200 - BitVec.ofNat 64 ((sp - 200).toNat % 16) := by
  have hmask : frameAddr sp = (sp - 200) >>> 4 <<< 4 := by
    unfold frameAddr
    ext i hi
    have h15 : (15#64)[i] = decide (i < 4) := Nat.testBit_two_pow_sub_one 4 i
    simp only [getElem_and, getElem_not, h15]
    by_cases h4 : i < 4
    · simp [h4]
    · simp [h4, Nat.add_sub_cancel' (Nat.le_of_not_lt h4), getLsbD_eq_getElem hi]
  rw [hmask]
  apply eq_of_toNat_eq
  simp only [toNat_shiftLeft, toNat_ushiftRight, Nat.shiftLeft_eq, Nat.shiftRight_eq_div_pow]
  have hx := (sp - 200).isLt
  bv_omega

theorem dispatch_memory (h : handleSignalDispatch th m tf sig act = some (th₁, m₁, tf₁)) :
    m₁.mapped = m.mapped ∧ m.mapped (frameAddr (tf rsp)) 200 ∧
      ∀ a, 8 ≤ (a - (frameAddr (tf rsp) - 8)).toNat → m₁.byte a =
        if (a - frameAddr (tf rsp)).toNat < 200 then
          frameByte tf th.mask (a - frameAddr (tf rsp)).toNat else m.byte a := by
  obtain ⟨hmap, h⟩ := ite_none_right_eq_some.mp h
  cases h
  exact ⟨rfl, hmap.1, fun a ha => if_neg (Nat.not_lt.mpr ha)⟩

theorem HandlerRun.keeps {sp : ℕ} {m₂ : Memory} (h : HandlerRun sp m m₂) :
    m₂.mapped = m.mapped ∧ ∀ a : BitVec 64, sp + 8 ≤ a.toNat → m₂.byte a = m.byte a := by
  induction h with
  | code byte h => exact ⟨rfl, h⟩
  | @nested sp m m₁ m₂ th th₁ tf tf₁ sig act hsp hroom hd hrun ih =>
    obtain ⟨hmap, -, hbyte⟩ := dispatch_memory hd
    refine ⟨ih.1.trans hmap, fun a ha => ?_⟩
    have hk := frameAddr_eq (tf rsp)
    rw [ih.2 a (by rw [(dispatch_regs hd).2.2]; bv_omega), hbyte a (by bv_omega), if_neg (by bv_omega)]
  | trans _ _ ih ih' => exact ⟨ih'.1.trans ih.1, fun a ha => (ih'.2 a ha).trans (ih.2 a ha)⟩

/-- The program goes on with the registers, mask and red zone it had at `tf`. -/
def Restored (syscall : Bool) (th : Thread) (m : Memory) (tf : Trapframe) (m₂ : Memory)
    (x : Thread × Trapframe) : Prop :=
  (∀ r ∉ [intNo, errCode, cs, ss], sysret x.2 r = if syscall then sysret tf r else tf r) ∧
    x.1.mask = th.mask ∧ ∀ i < 128, m₂.byte (tf rsp - 1 - BitVec.ofNat 64 i) =
      m.byte (tf rsp - 1 - BitVec.ofNat 64 i)

/-- `sysretq` gives the registers it overwrites their values. -/
def Resumable (tf : Trapframe) : Prop :=
  tf rcx = tf rip ∧ tf r11 = tf rflags ∧ tf rflags &&& 0x3c7fd7 ||| 2 = tf rflags

/-- Where the frame lies over the red zone, memory already has its bytes. -/
def RedZone (th : Thread) (m : Memory) (tf : Trapframe) : Prop :=
  ∀ i < 128, ∀ a, a = tf rsp - 1 - BitVec.ofNat 64 i → (a - frameAddr (tf rsp)).toNat < 200 →
    m.byte a = frameByte tf th.mask (a - frameAddr (tf rsp)).toNat

theorem sigreturn_frame {m₂ : Memory} {call : Trapframe} (th2 : Thread) (hcs : tf cs &&& 3 = 3)
    (hss : tf ss &&& 3 = 3) (hmap : m₂.mapped (call rsp) 200)
    (hbyte : ∀ j < 200, m₂.byte (call rsp + BitVec.ofNat 64 j) = frameByte tf th.mask j) :
    sysRtSigreturn th2 m₂ call = some ({ th2 with mask := th.mask }, tf) := by
  have hword (r : Fin 22) : m₂.word (call rsp) r = tf r := by
    rw [word_frame (by omega) hbyte]
    simp [frameWord]
  have hmask : m₂.word (call rsp) 22 = th.mask := word_frame (by decide) hbyte
  unfold sysRtSigreturn
  simp only [hword, hmask]
  rw [if_pos ⟨hmap, hcs, hss⟩]

/-- A signal and its `sys_rt_sigreturn` are invisible just when the program was in a system call or
`rcx` and `r11` had the values of `rip` and the flags, the stack does not wrap, and the red zone had
the bytes of the frame. -/
theorem sigreturn_restores_iff (syscall : Bool) (hcs : tf cs &&& 3 = 3) (hss : tf ss &&& 3 = 3)
    (hd : handleSignalDispatch th m tf sig act = some (th₁, m₁, tf₁)) :
    (∀ m₂ th₂ call, HandlerRun (tf₁ rsp).toNat m₁ m₂ → call rsp = tf₁ rsp + 8 →
      ∃ x, sysRtSigreturn th₂ m₂ call = some x ∧ Restored syscall th m tf m₂ x) ↔
    (syscall = false → Resumable tf) ∧ (tf rsp = 0 ∨ 216 ≤ (tf rsp).toNat) ∧ RedZone th m tf := by
  obtain ⟨hmap, hmapped, hbyte⟩ := dispatch_memory hd
  have hsp := (dispatch_regs hd).2.2
  have hk := frameAddr_eq (tf rsp)
  have hframe (j : ℕ) (hj : j < 200) :
      m₁.byte (frameAddr (tf rsp) + BitVec.ofNat 64 j) = frameByte tf th.mask j := by
    have hoff : (frameAddr (tf rsp) + BitVec.ofNat 64 j - frameAddr (tf rsp)).toNat = j := by bv_omega
    rw [hbyte _ (by bv_omega), hoff, if_pos hj]
  constructor
  · intro h
    have hquiet : ∃ x, sysRtSigreturn th m₁ (fun _ => tf₁ rsp + 8) = some x ∧
        Restored syscall th m tf m₁ x :=
      h m₁ th (fun _ => tf₁ rsp + 8) (.code m₁.byte fun _ _ => rfl) rfl
    obtain ⟨x, hx, hregs, -, hzone⟩ := hquiet
    rw [sigreturn_frame th hcs hss (by rw [hsp, hmap]; simpa using hmapped)
      (by rw [hsp]; simpa using hframe)] at hx
    cases hx
    refine ⟨?_, ?_, ?_⟩
    · rintro rfl
      exact ⟨(hregs rcx (by decide)).symm, (hregs r11 (by decide)).symm, hregs rflags (by decide)⟩
    · by_contra hroom
      -- the handler may change the byte below the stack pointer
      have hlt : (tf rsp - 1).toNat < (tf₁ rsp).toNat := by
        rw [hsp]
        bv_omega
      obtain ⟨x, -, -, -, hzone'⟩ := h
        { m₁ with byte := update m₁.byte (tf rsp - 1) (m₁.byte (tf rsp - 1) + 1) } th
        (fun _ => tf₁ rsp + 8) (.code _ fun b hb => Function.update_of_ne (by rintro rfl; omega) ..) rfl
      have h0 := hzone 0 (by decide)
      have h0' := hzone' 0 (by decide)
      rw [← h0, BitVec.sub_zero] at h0'
      simp at h0'
    · rintro i hi a rfl hoff
      have hm := hbyte (tf rsp - 1 - BitVec.ofNat 64 i) (by bv_omega)
      rw [if_pos hoff, hzone i hi] at hm
      exact hm
  · rintro ⟨hregs, hroom, hzone⟩ m₂ th₂ call hrun hcall
    obtain ⟨hmap2, hkeep⟩ := hrun.keeps
    have haddr : call rsp = frameAddr (tf rsp) := by rw [hcall, hsp]; simp
    refine ⟨_, sigreturn_frame th₂ hcs hss ?_ fun j hj => ?_, ?_, rfl, fun i hi => ?_⟩
    · rw [hmap2, hmap, haddr]
      exact hmapped
    · rw [haddr, hkeep _ (by rw [hsp]; bv_omega)]
      exact hframe j hj
    · intro r hr
      cases syscall with
      | true => rfl
      | false =>
        obtain ⟨h1, h2, h3⟩ := hregs rfl
        simp only [sysret]
        split_ifs <;> simp_all
    · rw [hkeep _ (by rw [hsp]; bv_omega), hbyte _ (by bv_omega)]
      split_ifs with hoff
      · exact (hzone i hi _ rfl hoff).symm
      · rfl

def prog : Trapframe := update (update (update (update 0 cs 0x2b) ss 0x23) rsp 0x1000) rcx 7

theorem sigreturn_restores_syscall : ∃ m th₁ m₁ tf₁,
    handleSignalDispatch idle m prog 0 ⟨2, 0, 0⟩ = some (th₁, m₁, tf₁) ∧
      ∀ m₂ th₂ call, HandlerRun (tf₁ rsp).toNat m₁ m₂ → call rsp = tf₁ rsp + 8 →
        ∃ x, sysRtSigreturn th₂ m₂ call = some x ∧ Restored true idle m prog m₂ x := by
  refine ⟨⟨fun a => frameByte prog 0 (a - frameAddr 0x1000).toNat, fun _ _ => true⟩, _, _, _, rfl, ?_⟩
  refine (sigreturn_restores_iff true (by decide) (by decide) rfl).mpr ⟨nofun, .inr (by decide), ?_⟩
  intro i _ a _ _
  rfl

/-- After an interrupt `rcx` is lost, and the red zone is overwritten. -/
theorem sigreturn_loses_rcx : ∃ th₁ m₁ tf₁ x,
    handleSignalDispatch idle ⟨0, fun _ _ => true⟩ prog 0 ⟨2, 0, 0⟩ = some (th₁, m₁, tf₁) ∧
      sysRtSigreturn th₁ m₁ (update tf₁ rsp (tf₁ rsp + 8)) = some x ∧
      sysret x.2 rcx ≠ prog rcx ∧ m₁.byte (prog rsp - 64) = 0x2b :=
  ⟨_, _, _, _, rfl, rfl, by decide +kernel, by decide +kernel⟩

end Doppio.Signal
