import OppoOS.Console
import OppoOS.PointerTranslation

/-!
# The system calls of libc

`syscall` takes its arguments as `int`, so a pointer loses its upper half and is
sign-extended in the register, and the kernel translates what arrives without looking at
permissions. Together they find exactly the byte that the program means, and never a byte of
the kernel. Characters pass through the same registers unchanged.
-/
namespace UserCalls

open ByteMemory RiscV Paging Processes ProcessSpace Mmu SpaceLayout DeviceInit KernelRuns
open KernelGuarantees Console TaggedStream
open SavedContexts TrapInvariant PointerTranslation Function
open SystemCalls hiding Event Step Booted Reachable
open Loader (loadedSize)
open BuddyAllocator (pageSize)

/-- The registers at the `ecall` of `syscall`. -/
def syscall (sysno arg0 arg1 arg2 : BitVec 32) (regs : Reg → Word) : Reg → Word
  | .a0 => arg0.signExtend 64
  | .a1 => arg1.signExtend 64
  | .a2 => arg2.signExtend 64
  | .a3 => sysno.signExtend 64
  | r => regs r

/-- `open(path, access)`. -/
def openCall (path : Word) (access : BitVec 32) : (Reg → Word) → Reg → Word :=
  syscall 0 (path.setWidth 32) access 0

/-- `read(fd, buf, size)`. -/
def readCall (fd : BitVec 32) (buf : Word) (size : BitVec 32) : (Reg → Word) → Reg → Word :=
  syscall 2 fd (buf.setWidth 32) size

/-- `putc(c)`. -/
def putcCall (c : UInt8) : (Reg → Word) → Reg → Word := syscall 10 (BitVec.ofNat 32 c.toNat) 0 0

/-- `getc()`. -/
def getcCall : (Reg → Word) → Reg → Word := syscall 11 0 0 0

def result (regs : Reg → Word) : BitVec 32 := (regs .a0).setWidth 32

/-- `vaddr_to_paddr(current_proc->page_table, v)`. -/
def resolve (s : State) (v : Word) : ℕ :=
  vaddrToPaddr s.mem (s.kernel.procs s.current).pageTable v.toNat

/-- `arg_a0` of `SYS_OPEN`. -/
def openPath (s : State) (f : Word) : ℕ := resolve s (field s.mem f .a0)

/-- `arg_a1` of `SYS_READ`. -/
def readBuf (s : State) (f : Word) : ℕ := resolve s (field s.mem f .a1)

/-- What the kernel gets for the pointer `p` of a program with an image of `n` bytes: `q` is
the program's own byte, a device register, or NULL. -/
structure Resolved (m : Mem) (root n : ℕ) (p : Word) (q : ℕ) : Prop where
  image : userBase ≤ p.toNat % 2 ^ 32 → p.toNat % 2 ^ 32 < userBase + loadedSize n →
    userAccess m root (p.toNat % 2 ^ 32) = some q
  device : virtioPaddr ≤ p.toNat % 2 ^ 32 →
    p.toNat % 2 ^ 32 < virtioPaddr + 8 * pageSize → q = p.toNat % 2 ^ 32
  null : ¬ (userBase ≤ p.toNat % 2 ^ 32 ∧ p.toNat % 2 ^ 32 < userBase + loadedSize n) →
    ¬ (virtioPaddr ≤ p.toNat % 2 ^ 32 ∧ p.toNat % 2 ^ 32 < virtioPaddr + 8 * pageSize) → q = 0
  own : ∀ x, userAccess m root p.toNat = some x → q = x

theorem intArg_toNat (p : Word) : ((p.setWidth 32).signExtend 64).toNat =
    if p.toNat % 2 ^ 32 < 2 ^ 31 then p.toNat % 2 ^ 32
    else 2 ^ 64 - 2 ^ 32 + p.toNat % 2 ^ 32 := by
  rw [BitVec.toNat_signExtend, BitVec.msb_eq_decide, BitVec.toNat_setWidth, BitVec.toNat_setWidth]
  by_cases h : p.toNat % 2 ^ 32 < 2 ^ 31
  · rw [if_pos h, if_neg (by simp; omega)]
    omega
  · rw [if_neg h, if_pos (by simp; omega)]
    omega

section
variable {l : Layout} {m : Mem} {root n : ℕ}

theorem resolved_of_laidOut (h : LaidOut l m root n) (hn : n ≤ maxImage)
    (ht : TranslationFacts m root) (p : Word) :
    Resolved m root n p (vaddrToPaddr m root ((p.setWidth 32).signExtend 64).toNat) := by
  have hram : l.freeRamEnd ≤ 2 ^ 32 := l.ram_end.trans (by decide)
  have hsize : userBase + loadedSize n < 2 ^ 31 := by
    simp only [loadedSize, maxImage, userBase, pageSize] at hn ⊢
    omega
  have hdev : virtioPaddr + 8 * pageSize < 2 ^ 31 := by decide
  have hkernel : kernelBase = 0x80200000 := rfl
  have hsame : ∀ v, v < 2 ^ 31 → signExtend v = v := fun v hv =>
    signExtend_of_canonical (by omega) (.inl (by omega))
  have hown : ∀ x, userAccess m root p.toNat = some x →
      p.toNat % 2 ^ 32 = p.toNat ∧ p.toNat < 2 ^ 31 := by
    intro x hx
    have hin := image_of_access h p.isLt hx
    exact ⟨Nat.mod_eq_of_lt (by omega), by omega⟩
  rw [intArg_toNat]
  generalize hw : p.toNat % 2 ^ 32 = w at hown ⊢
  have hw32 : w < 2 ^ 32 := hw ▸ Nat.mod_lt _ (by decide)
  by_cases hlt : w < 2 ^ 31
  · rw [if_pos hlt]
    constructor
    · rw [hw]
      intro hlo hhi
      obtain ⟨x, hmaps⟩ := h.image (w - userBase) (by omega)
      rw [show userBase + (w - userBase) = w by omega] at hmaps
      rw [ht.user w (by omega) x (access_of_maps hmaps), access_of_maps hmaps]
    · rw [hw]
      intro hlo hhi
      obtain ⟨pte, htr, -⟩ := h.device w hlo hhi
      exact ht.same w (by omega) pte w (by rwa [hsame w hlt])
    · rw [hw]
      intro hu hd
      by_contra hne
      obtain ⟨pte, x, htr⟩ := (ht.mapped w (by omega)).mp hne
      rw [hsame w hlt, h.unmapped w (by omega) hu (by omega) hd] at htr
      cases htr
    · intro x hx
      rw [(hown x hx).1]
      exact ht.user _ p.isLt x hx
  · rw [if_neg hlt]
    refine ⟨fun hlo hhi => by omega, fun hlo hhi => by omega, fun _ _ => ?_, fun x hx => ?_⟩
    · have hcanon : Canonical (2 ^ 64 - 2 ^ 32 + w) := .inr (by omega)
      by_contra hne
      obtain ⟨pte, x, htr⟩ := (ht.mapped (2 ^ 64 - 2 ^ 32 + w) (by omega)).mp hne
      rw [signExtend_of_canonical (by omega) hcanon,
        h.unmapped (2 ^ 64 - 2 ^ 32 + w) (by omega) (by omega) (by omega) (by omega)] at htr
      cases htr
    · have := hown x hx
      omega

end

section
variable {δ : Type} {bus : Bus δ} {l : Layout} {blk : BlkDevice} {sizes : List ℕ} {s t : State}

/-- In every run each pointer that `open` or `read` passes is resolved to the program's own
byte, to a register of a device, or to NULL. -/
theorem libc_pointers (hr : Reachable bus l blk sizes s) {pc : Word} (hm : s.mode = .user pc)
    (hs : Step l (driverBlocks blk) s (.kernel .ecall) t) {a : Activation}
    (ha : t.mode = .handler a false) :
    (∀ path access regs, s.regs = openCall path access regs →
      Resolved t.mem (t.kernel.procs t.current).pageTable (imageSize sizes t.current) path
        (openPath t a.frame)) ∧
    ∀ fd buf size regs, s.regs = readCall fd buf size regs →
      Resolved t.mem (t.kernel.procs t.current).pageTable (imageSize sizes t.current) buf
        (readBuf t a.frame) := by
  obtain ⟨loc, frames, h⟩ := reachable_invariant hr
  obtain ⟨loc', frames', h', -⟩ := step_invariant h hs
  have hused := h'.current_used
  have htable := h'.spaces.isolated.table _ hused
  have hlaid : LaidOut l t.mem (t.kernel.procs t.current).pageTable (imageSize sizes t.current) :=
    laidOut_of_table htable (h'.spaces.frames_length _ hused) (imageSize_le h'.accepted _)
  have hfacts : TranslationFacts t.mem (t.kernel.procs t.current).pageTable :=
    translation_facts htable (Isolation.spaceLeaves_readable l _ _)
      fun _ _ he => Invariant.leaf_pos h'.spaces.isolated hused he
  have hresolved := resolved_of_laidOut hlaid (imageSize_le h'.accepted _) hfacts
  have hfield : ∀ r, field t.mem a.frame r = s.regs r := by
    cases hs with
    | kernel e t he hs =>
      cases hs with
      | ecall pc' hm' =>
        obtain ⟨hi, -, -, hin⟩ := (running_user hm).mp h.trap.running
        have hspec := trapFrom_spec hi hin pc'
        obtain ⟨a', hmode, hh⟩ := hspec.handling
        rw [hmode] at ha
        obtain rfl := (Mode.handler.inj ha).1
        intro r
        rw [field, hh.frame, hh.saved r, Trap.value]
        split
        · next hr => rw [hr]; rfl
        · rfl
  constructor
  · intro path access regs hregs
    rw [openPath, resolve, hfield, hregs]
    exact hresolved path
  · intro fd buf size regs hregs
    rw [readBuf, resolve, hfield, hregs]
    exact hresolved buf

end

theorem low_putcCall (c : UInt8) (regs : Reg → Word) : low (putcCall c regs .a0) = c := by
  have hlt := c.toNat_lt
  have ha0 : putcCall c regs .a0 = (BitVec.ofNat 32 c.toNat).signExtend 64 := rfl
  have hc : (BitVec.ofNat 32 c.toNat).toNat = c.toNat := by
    rw [BitVec.toNat_ofNat]
    exact Nat.mod_eq_of_lt (by omega)
  rw [low, ha0, BitVec.toNat_signExtend, BitVec.msb_eq_decide, BitVec.toNat_setWidth, hc,
    if_neg (by simp; omega), Nat.mod_eq_of_lt (by omega), Nat.add_zero, UInt8.ofNat_toNat]

theorem result_charWord {regs : Reg → Word} {c : UInt8} (h : regs .a0 = charWord c) :
    result regs = BitVec.ofNat 32 c.toNat := by
  have hlt := c.toNat_lt
  rw [result, h, charWord]
  apply BitVec.eq_of_toNat_eq
  rw [BitVec.toNat_setWidth, BitVec.toNat_ofNat, BitVec.toNat_ofNat]
  omega

inductive Between (l : Layout) (drivers : List BuddyTiling.Block) (p : Fin procsMax) :
    State → Log → State → Log → Prop where
  | nil (s log) : Between l drivers p s log s log
  | tail {s log t log' e u} : Between l drivers p s log t log' → Step l drivers t e u →
      ¬ (e = .kernel .sysret ∧ t.current = p) →
      Between l drivers p s log u (recordStep t e u log')

section
variable {δ : Type} {bus : Bus δ} {l : Layout} {blk : BlkDevice} {sizes : List ℕ}
  {s t u : State} {log log₁ : Log} {p : Fin procsMax}

theorem recordStep_trapped {drivers : List BuddyTiling.Block} {e : KernelRuns.Event}
    (log : Log) (h : TrapInvariant.Invariant l s) (hs : Step l drivers s e t)
    (he : ¬ (e = .kernel .sysret ∧ s.current = p)) {tr : SystemCalls.Trap}
    (htr : s.traps p = some tr) :
    of p (recordStep s e t log).asked = of p log.asked ∧
      of p (recordStep s e t log).received = of p log.received := by
  cases hs with
  | kernel e t hk hs =>
    cases hs with
    | ecall pc hm =>
      have hp : p ≠ s.current := by
        rintro rfl
        rw [((running_user hm).mp h.running).2.2.1] at htr
        cases htr
      generalize trapFrom s pc = u
      simp only [recordStep, record_ecall]
      split
      · exact ⟨of_snoc_other hp _ _, rfl⟩
      · exact ⟨rfl, rfl⟩
    | sysret a regs hm =>
      have hp : p ≠ s.current := fun hp => he ⟨rfl, hp.symm⟩
      generalize returnFrom s a regs = u
      simp only [recordStep, record_sysret]
      split
      · exact ⟨rfl, of_snoc_other hp _ _⟩
      · exact ⟨rfl, rfl⟩
    | syscall a hm hf =>
      simp only [recordStep, record_syscall hm]
      split <;> exact ⟨rfl, rfl⟩
    | _ => exact ⟨rfl, rfl⟩
  | _ => exact ⟨rfl, rfl⟩

theorem between_trapped (hl : Logged bus l blk log sizes s) {tr : SystemCalls.Trap}
    (htr : s.traps p = some tr) (hb : Between l (driverBlocks blk) p s log t log₁) :
    (∃ sizes', Logged bus l blk log₁ sizes' t) ∧
      (∃ tr', t.traps p = some tr' ∧ tr'.regs = tr.regs ∧ tr'.pc = tr.pc) ∧
      of p log₁.asked = of p log.asked ∧ of p log₁.received = of p log.received := by
  induction hb with
  | nil => exact ⟨⟨_, hl⟩, ⟨tr, htr, rfl, rfl⟩, rfl, rfl⟩
  | tail _ hs he ih =>
    obtain ⟨⟨sizes', hl'⟩, ⟨tr', htr', hregs, hpc⟩, hasked, hreceived⟩ := ih
    obtain ⟨loc, frames, h⟩ := reachable_invariant (logged_reachable hl')
    obtain ⟨tr'', htr'', hregs', hpc', -⟩ :=
      step_carries h.trap hs (fun hc => he ⟨kernelCall_eq.mp hc.1, hc.2⟩) tr' htr'
    obtain ⟨ha, hr⟩ := recordStep_trapped _ h.trap hs he htr'
    exact ⟨⟨_, hl'.step hs⟩, ⟨tr'', htr'', hregs'.trans hregs, hpc'.trans hpc⟩, ha.trans hasked,
      hr.trans hreceived⟩

theorem record_ecall_inputs (s t : State) (log : Log) :
    (record s .ecall t log).taken = log.taken ∧ (record s .ecall t log).received = log.received := by
  rw [record_ecall]
  split <;> exact ⟨rfl, rfl⟩

theorem record_sysret_asked (s t : State) (log : Log) :
    (record s .sysret t log).asked = log.asked ∧ (record s .sysret t log).taken = log.taken := by
  rw [record_sysret]
  split <;> exact ⟨rfl, rfl⟩

/-- When libc's `putc` returns, its character is on the console behind all earlier ones of
the process, once; `getc` takes one character from the console and returns that one. -/
theorem libc_chars (hl : Logged bus l blk log sizes s) {pc : Word} (hm : s.mode = .user pc)
    {s₁ : State} (hs : Step l (driverBlocks blk) s (.kernel .ecall) s₁)
    (hb : Between l (driverBlocks blk) s.current s₁ (recordStep s (.kernel .ecall) s₁ log) t log₁)
    (hc : t.current = s.current) (hret : Step l (driverBlocks blk) t (.kernel .sysret) u) :
    (∀ c regs, s.regs = putcCall c regs →
      of s.current (recordStep t (.kernel .sysret) u log₁).printed =
        of s.current log.printed ++ [c]) ∧
    ∀ regs, s.regs = getcCall regs → ∃ c,
      of s.current (recordStep t (.kernel .sysret) u log₁).taken = of s.current log.taken ++ [c] ∧
      of s.current (recordStep t (.kernel .sysret) u log₁).received =
        of s.current log.received ++ [c] ∧
      result u.regs = BitVec.ofNat 32 c.toNat := by
  obtain ⟨loc, frames, h⟩ := reachable_invariant (logged_reachable hl)
  obtain ⟨hbefore, hbefore'⟩ := (logged_exact hl).1.settled h.trap hm
  obtain ⟨⟨sizes', hl'⟩, ⟨tr, htr, hregs, hpc⟩, hasked, hreceived⟩ :=
    between_trapped (hl.step hs) (TrapCoherence.ecall_trap hm (kernel_step hs)) hb
  obtain ⟨loc', frames', h'⟩ := reachable_invariant (logged_reachable hl')
  have hco := TrapCoherence.return_coherent h'.trap (hc ▸ htr) (kernel_step hret) hc hregs hpc rfl
  have hl'' := hl'.step hret
  obtain ⟨loc'', frames'', h''⟩ := reachable_invariant (logged_reachable hl'')
  obtain ⟨hafter, hafter'⟩ := (logged_exact hl'').1.settled h''.trap hco.pc
  rw [hco.own.current] at hafter hafter'
  constructor
  · intro c regs hcall
    have hput : s.regs .a3 = sysPutc := by
      rw [hcall]
      rfl
    have hfirst : (recordStep s (.kernel .ecall) s₁ log).asked = log.asked ++ [(s.current, c)] := by
      simp only [recordStep, record_ecall, if_pos hput]
      rw [hcall, low_putcCall]
    rw [hafter]
    simp only [recordStep]
    rw [(record_sysret_asked _ _ _).1, hasked, hfirst, of_snoc_self, hbefore]
  · intro regs hcall
    have hgetc : s.regs .a3 = sysGetc := by
      rw [hcall]
      rfl
    have ha3 : u.regs .a3 = s.regs .a3 := hco.regs .a3 (by decide)
    obtain ⟨c, -, ha0⟩ := hco.getc hgetc
    have hgot : of s.current (recordStep t (.kernel .sysret) u log₁).received =
        of s.current log.received ++ [c] := by
      simp only [recordStep, record_sysret, if_pos (ha3.trans hgetc)]
      simp only [recordStep, (record_ecall_inputs _ _ _).2] at hreceived
      rw [hc, of_snoc_self, hreceived, ha0, low_charWord]
    exact ⟨c, by rw [← hafter', hgot, hbefore'], hgot, result_charWord ha0⟩

end

/-- The shell opens a path of its image. -/
theorem sample_pointer : ∃ t : State, ∃ a, t.mode = .handler a false ∧
    Resolved t.mem (t.kernel.procs t.current).pageTable (imageSize [0x1000] t.current) 0x1000010
      (openPath t a.frame) := by
  obtain ⟨blk, s, hr, hregs, -, hm⟩ := sample_user (openCall 0x1000010 1 fun _ => 0) []
  obtain ⟨loc, frames, h⟩ := reachable_invariant hr
  obtain ⟨t, a, hecall, -, hmode, -⟩ := TrapCoherence.ecall_enters h.trap hm
  exact ⟨t, a, hmode, (libc_pointers hr hm (.kernel _ .ecall _ trivial hecall) hmode).1 _ _ _ hregs⟩

/-- The shell calls `getc` with an `x` in the console and gets it. -/
theorem sample_libc_getc : ∃ s u : State, ∃ log log' : Log, s.input = [120] ∧
    of s.current log'.taken = of s.current log.taken ++ [120] ∧
    of s.current log'.received = of s.current log.received ++ [120] ∧
    result u.regs = 120 := by
  obtain ⟨blk, s, hr, hregs, hinput, hm⟩ := sample_user (getcCall fun _ => 0) [120]
  obtain ⟨log, hl⟩ := reachable_logged hr
  obtain ⟨loc, frames, h⟩ := reachable_invariant hr
  obtain ⟨s₁, a, hecall, hspec, hmode, hfield⟩ := TrapCoherence.ecall_enters h.trap hm
  have hcur : s₁.current = s.current := current_withMem hspec.sched
  have hgetc : s.regs .a3 = sysGetc := by
    rw [hregs]
    rfl
  obtain ⟨t, hget, hdone, hcur'⟩ : ∃ t, SystemCalls.Step sampleLayout s₁ (.getc 120) t ∧
      t.mode = .handler a true ∧ t.current = s.current :=
    ⟨_, .getc s₁ a 120 [] hmode (hfield.trans hgetc) (hspec.input.trans hinput), rfl, hcur⟩
  have hstep : Step sampleLayout (driverBlocks blk) s (.kernel .ecall) s₁ :=
    .kernel _ .ecall _ trivial hecall
  have hb := (Between.nil s₁ (recordStep s (.kernel .ecall) s₁ log)).tail (p := s.current)
    (Step.kernel _ (.getc 120) _ trivial hget : Step _ (driverBlocks blk) _ _ _)
    (fun hc => by cases hc.1)
  have hret : Step sampleLayout (driverBlocks blk) t (.kernel .sysret) _ :=
    .kernel _ .sysret _ trivial (.sysret t a a.entry hdone rfl fun _ _ _ => rfl)
  obtain ⟨c, htaken, hreceived, hresult⟩ := (libc_chars hl hm hstep hb hcur' hret).2 _ hregs
  have hlog : ∀ u : State, (record t .sysret u (record s₁ (.getc 120) t
      (record s .ecall s₁ log))).taken = log.taken ++ [(s.current, 120)] := fun u => calc
    _ = (record s₁ (.getc 120) t (record s .ecall s₁ log)).taken := (record_sysret_asked t u _).2
    _ = (record s .ecall s₁ log).taken ++ [(s₁.current, 120)] := rfl
    _ = log.taken ++ [(s.current, 120)] := by rw [(record_ecall_inputs s s₁ log).1, hcur]
  have hc : c = 120 := by
    simp only [recordStep] at htaken
    rw [hlog, of_snoc_self] at htaken
    exact (List.singleton_inj.mp (List.append_cancel_left htaken)).symm
  subst hc
  exact ⟨s, _, log, _, hinput, htaken, hreceived, hresult⟩

end UserCalls
