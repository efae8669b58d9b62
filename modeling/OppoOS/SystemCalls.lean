import OppoOS.ContextSwitch
import OppoOS.ProcessSpace
import OppoOS.Scheduler

/-!
# System calls

Processes that run, trap, wait for input, exit and are switched, on one hart. The assembly
code is executed instruction by instruction. Compiled code runs under the calling convention:
it writes below its caller's frames, and when a function it calls returns with the same stack
pointer, callee-saved registers and stack, it goes on with its local variables as they were.
No interrupt is taken in the kernel.
-/
namespace SystemCalls

open ByteMemory RiscV ContextSwitch Paging PageGrants Processes ProcessSpace Function
open Scheduler (ResumePoint)
open BuddyAllocator (pageSize)

def sysOpen : Word := 0
def sysClose : Word := 1
def sysRead : Word := 2
def sysExit : Word := 8
def sysPutc : Word := 10
def sysGetc : Word := 11

def sstatusSpie : Word := 1 <<< 5
def satpSv39 : ℕ := 8 <<< 60

def satpOf (pageTable : ℕ) : Word := BitVec.ofNat 64 (satpSv39 ||| pageTable / pageSize)

def stackTopWord (l : Layout) (i : Fin procsMax) : Word := BitVec.ofNat 64 (l.stackTop i)

/-- The stack a process runs kernel code on: the idle process is `kmain` on the boot stack. -/
def stackLow (l : Layout) (i : Fin procsMax) : ℕ :=
  if i = 0 then l.bootStackTop - stackSize else l.stackTop i - stackSize
def stackHigh (l : Layout) (i : Fin procsMax) : ℕ :=
  if i = 0 then l.bootStackTop else l.stackTop i

/-- Where the frames of kernel code begin, below the trap frame of a user process. -/
def codeTop (l : Layout) (i : Fin procsMax) : ℕ :=
  if i = 0 then l.bootStackTop else l.stackTop i - 248

def InStacks (l : Layout) (x : ℕ) : Prop :=
  (l.procs ≤ x ∧ x < l.procs + procsMax * processSize) ∨
    (l.bootStackTop - stackSize ≤ x ∧ x < l.bootStackTop)

/-- Compiled code of process `i` writes its own stack below `limit`, and whatever is neither
a stack nor a saved stack pointer. -/
def CodeWrites (l : Layout) (i : Fin procsMax) (limit : ℕ) (m m' : Mem) : Prop :=
  ∀ x, InStacks l x → ¬ (stackLow l i ≤ x ∧ x < limit) → m' x = m x

/-- A call of `handle_trap`: its argument, its variable `user_pc`, the registers it was
called with. -/
structure Activation where
  frame : Word
  userPc : Word
  entry : Reg → Word

/-- Where the hart is. In `handle_trap` the flag tells whether `syscall_entry` has returned;
`ret` is the last instruction of `switch_context`. -/
inductive Mode where
  | user (pc : Word)
  | handler (a : Activation) (done : Bool)
  | kmain
  | ret
  | panicked

/-- A call of `switch_context` that has not returned: the registers and the memory it was
called with, and where its caller goes on. -/
structure Call where
  regs : Reg → Word
  mem : Mem
  mode : Mode

/-- What a process trapped with, and the character its system call has consumed. -/
structure Trap where
  regs : Reg → Word
  pc : Word
  got : Option UInt8

/-- `f->a0 = c`. -/
def charWord (c : UInt8) : Word := BitVec.ofNat 64 c.toNat

def Trap.value (t : Trap) (r : Reg) : Word :=
  if r = .a0 then (t.got.map charWord).getD (t.regs .a0) else t.regs r

structure State where
  sched : Scheduler.State
  regs : Reg → Word
  csrs : Csr → Word
  mode : Mode
  calls : Fin procsMax → Option Call
  traps : Fin procsMax → Option Trap
  input : List UInt8

abbrev State.kernel (s : State) : Kernel := s.sched.kernel
abbrev State.current (s : State) : Fin procsMax := s.sched.kernel.currentProc
abbrev State.mem (s : State) : Mem := s.sched.kernel.pages.mem

def withMem (s : Scheduler.State) (m : Mem) : Scheduler.State :=
  { s with kernel := { s.kernel with pages := { s.kernel.pages with mem := m } } }

/-- `f->r`. -/
def field (m : Mem) (f : Word) (r : Reg) : Word := loadWord m (f.toNat + 8 * slot r)

/-- The calls of `yield`: while `SYS_GETC` finds no character, in `proc_exit`, and in `kmain`.
The kernel as `yield` finds it, the kind of call, the limit of the caller's stack, and where
the caller goes on; `proc_exit` does not expect to. -/
inductive Yields (l : Layout) (s : State) : Kernel → ResumePoint → ℕ → Mode → Prop where
  | getc (a) : s.mode = .handler a false → field s.mem a.frame .a3 = sysGetc → s.input = [] →
      Yields l s s.kernel .yieldReturn (a.entry .sp).toNat (.handler a false)
  | exit (a) : s.mode = .handler a false → field s.mem a.frame .a3 = sysExit →
      Yields l s (markExited s.kernel) .exitReturn (a.entry .sp).toNat .panicked
  | kmain : s.mode = .kmain → Yields l s s.kernel .yieldReturn l.bootStackTop .kmain

/-- The registers with which `yield` calls `switch_context`. A return address lies behind a
call instruction, so it is not the start of `user_entry`. -/
structure CallRegs (l : Layout) (prev next : Fin procsMax) (limit : ℕ) (r : Reg → Word) :
    Prop where
  a0 : (r .a0).toNat = l.spAddr prev
  a1 : (r .a1).toNat = l.spAddr next
  sp_ge : stackLow l prev + 104 ≤ (r .sp).toNat
  sp_le : (r .sp).toNat ≤ limit
  ra : (r .ra).toNat ≠ l.userEntry

/-- The rest of `yield` when another process is chosen, up to the `ret` of
`switch_context`. -/
def switchTo (l : Layout) (s : State) (k : Kernel) (caller : ResumePoint) (mode : Mode)
    (r : Reg → Word) : State :=
  let next := nextProc k
  let csrs := update (update s.csrs .sscratch (stackTopWord l next)) .satp
    (satpOf (k.procs next).pageTable)
  let h := Hart.exec ⟨r, csrs, s.mem⟩ switchContext
  { s with
    sched := withMem (Scheduler.call s.sched caller (yield k)) h.mem
    regs := h.regs
    csrs := h.csrs
    mode := .ret
    calls := update s.calls s.current (some ⟨r, s.mem, mode⟩) }

/-- An `ecall` at `pc`, up to the beginning of `handle_trap`. -/
def trapFrom (s : State) (pc : Word) : State :=
  let h := Hart.exec ⟨s.regs, update s.csrs .sepc pc, s.mem⟩ trapEntry
  { s with
    sched := withMem s.sched h.mem
    regs := h.regs
    csrs := h.csrs
    mode := .handler ⟨h.regs .a0, h.csrs .sepc, h.regs⟩ false
    traps := update s.traps s.current (some ⟨s.regs, pc, none⟩) }

/-- The end of `handle_trap`, which returns with the registers `regs`, up to `sret`. -/
def returnFrom (s : State) (a : Activation) (regs : Reg → Word) : State :=
  let h := Hart.exec ⟨regs, update s.csrs .sepc (a.userPc + 4), s.mem⟩ trapExit
  { s with
    sched := withMem s.sched h.mem
    regs := h.regs
    csrs := h.csrs
    mode := .user (h.csrs .sepc)
    traps := update s.traps s.current none }

theorem trapFrom_sched (s : State) (pc : Word) :
    (trapFrom s pc).sched = withMem s.sched (trapFrom s pc).mem := by
  unfold trapFrom
  generalize Hart.exec _ trapEntry = h
  rfl

@[simp] theorem trapFrom_traps (s : State) (pc : Word) :
    (trapFrom s pc).traps = update s.traps s.current (some ⟨s.regs, pc, none⟩) := rfl

theorem returnFrom_sched (s : State) (a : Activation) (regs : Reg → Word) :
    (returnFrom s a regs).sched = withMem s.sched (returnFrom s a regs).mem := by
  unfold returnFrom
  generalize Hart.exec _ trapExit = h
  rfl

@[simp] theorem returnFrom_traps (s : State) (a : Activation) (regs : Reg → Word) :
    (returnFrom s a regs).traps = update s.traps s.current none := rfl

theorem returnFrom_current (s : State) (a : Activation) (regs : Reg → Word) :
    (returnFrom s a regs).current = s.current := rfl

/-- The calling convention: the call returns as it was made. -/
structure ReturnsTo (l : Layout) (i : Fin procsMax) (c : Call) (regs : Reg → Word) (m : Mem) :
    Prop where
  sp : regs .sp = c.regs .sp
  saved : ∀ r ∈ switchFrame, regs r = c.regs r
  stack : ∀ x, (c.regs .sp).toNat ≤ x → x < stackHigh l i → m x = c.mem x

inductive Event where
  | user | ecall | work | syscall | yield | dispatch | resume | sysret | create | input | panic
  | getc (c : UInt8)
  deriving DecidableEq

inductive Step (l : Layout) : State → Event → State → Prop where
  | user (s pc regs pc' m) : s.mode = .user pc → (∀ x, InStacks l x → m x = s.mem x) →
      Step l s .user
        { s with sched := withMem s.sched m, regs := regs, mode := .user pc' }
  | ecall (s pc) : s.mode = .user pc → Step l s .ecall (trapFrom s pc)
  -- any other cause makes `handle_trap` panic
  | fault (s pc) : s.mode = .user pc →
      Step l s .panic { trapFrom s pc with mode := .panicked, traps := s.traps }
  | work (s a done m) : s.mode = .handler a done →
      CodeWrites l s.current (a.entry .sp).toNat s.mem m →
      Step l s .work { s with sched := withMem s.sched m }
  | workMain (s m) : s.mode = .kmain → CodeWrites l s.current l.bootStackTop s.mem m →
      Step l s .work { s with sched := withMem s.sched m }
  | syscall (s a) : s.mode = .handler a false →
      field s.mem a.frame .a3 ∈ [sysPutc, sysRead, sysOpen, sysClose] →
      Step l s .syscall { s with mode := .handler a true }
  | getc (s a c rest) : s.mode = .handler a false → field s.mem a.frame .a3 = sysGetc →
      s.input = c :: rest →
      Step l s (.getc c)
        { s with
          sched := withMem s.sched (storeWord s.mem (a.frame.toNat + 8 * slot .a0) (charWord c))
          mode := .handler a true
          traps := update s.traps s.current
            ((s.traps s.current).map fun t => { t with got := some c })
          input := rest }
  | unknown (s a) : s.mode = .handler a false →
      field s.mem a.frame .a3 ∉ [sysPutc, sysGetc, sysExit, sysRead, sysOpen, sysClose] →
      Step l s .panic { s with mode := .panicked }
  -- `yield` returns at once when it chooses its caller
  | keep (s k caller limit mode) : Yields l s k caller limit mode → nextProc k = s.current →
      Step l s .yield { s with sched := Scheduler.call s.sched caller (yield k), mode := mode }
  | switch (s k caller limit mode r) : Yields l s k caller limit mode →
      nextProc k ≠ s.current → CallRegs l s.current (nextProc k) limit r →
      Step l s .yield (switchTo l s k caller mode r)
  | dispatch (s regs) : s.mode = .ret → (s.regs .ra).toNat = l.userEntry →
      Step l s .dispatch
        { s with
          regs := regs
          csrs := update (update s.csrs .sepc (BitVec.ofNat 64 userBase)) .sstatus sstatusSpie
          mode := .user (BitVec.ofNat 64 userBase) }
  -- whichever call the registers and the stack are those of
  | resume (s i c) : s.mode = .ret → s.calls i = some c → ReturnsTo l i c s.regs s.mem →
      Step l s .resume { s with mode := c.mode, calls := update s.calls i none }
  | sysret (s a regs) : s.mode = .handler a true → regs .sp = a.entry .sp →
      (∀ r ∈ switchFrame, r ≠ .ra → regs r = a.entry r) →
      Step l s .sysret (returnFrom s a regs)
  -- `kmain` calls `create_process` with the allocator in order and pages enough
  | create (s image imageSize i t) : s.mode = .kmain →
      (∃ base, Owned (heapOf l) base s.kernel.pages) →
      createProcess kallocPage l s.kernel.toProcTable image imageSize = some (i, t) →
      0 ∉ t.pages.granted →
      Step l s .create
        { s with
          sched :=
            { kernel := { s.kernel with toProcTable := t }
              resume := update s.sched.resume i .start
              control := s.sched.control } }
  | input (s c) : Step l s .input { s with input := s.input ++ [c] }

inductive Booted (l : Layout) : State → Prop where
  | mk (t k regs csrs input) : (∀ i, (t.procs i).state = .unused) →
      (∃ base, Owned (heapOf l) base t.pages) → initProc kallocPage l t = some k →
      0 ∉ k.pages.granted →
      Booted l ⟨Scheduler.start k, regs, csrs, .kmain, fun _ => none, fun _ => none, input⟩

inductive Reachable (l : Layout) : State → Prop where
  | boot {s} : Booted l s → Reachable l s
  | step {s e t} : Reachable l s → Step l s e t → Reachable l t

end SystemCalls
