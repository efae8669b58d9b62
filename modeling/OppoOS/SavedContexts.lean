import OppoOS.SystemCalls

/-!
# Saved contexts

What a process that does not run has left in memory, and what trap entry, trap exit,
`switch_context` and `create_process` do to it.
-/
namespace SavedContexts

open ByteMemory RiscV ContextSwitch Paging PageGrants Processes ProcessSpace SystemCalls Function
open Scheduler (ResumePoint)
open BuddyAllocator (pageSize)

/-- The bytes that carry what process `i` saved: its stack and `procs[i].sp`. -/
def Own (l : Layout) (i : Fin procsMax) (x : ℕ) : Prop :=
  (stackLow l i ≤ x ∧ x < stackHigh l i) ∨ (l.spAddr i ≤ x ∧ x < l.spAddr i + 8)

theorem layout_bounds (l : Layout) (i : Fin procsMax) :
    l.stackTop i = l.procs + i * 8216 + 8216 ∧ l.spAddr i = l.procs + i * 8216 + 8 ∧
      l.procs + 8 * 8216 + 8192 ≤ l.bootStackTop ∧ l.bootStackTop ≤ l.freeRam ∧
      l.freeRam < 2 ^ 32 ∧ 0x80200000 ≤ l.procs ∧ (i : ℕ) < 8 := by
  have hin : kernelBase ≤ l.procs := l.procs_inside.1
  have hboot : l.procs + 8 * 8216 + 8192 ≤ l.bootStackTop := l.bootStack_inside.1
  have htop : l.stackTop i = l.procs + i * 8216 + 8216 := rfl
  have hsp : l.spAddr i = l.procs + i * 8216 + 8 := rfl
  have hend := l.ram_end
  exact ⟨htop, hsp, hboot, l.bootStack_inside.2, by omega, hin, i.isLt⟩

theorem stack_bounds (l : Layout) (i : Fin procsMax) :
    ((i : ℕ) = 0 ∧ stackLow l i = l.bootStackTop - 8192 ∧ stackHigh l i = l.bootStackTop ∧
        codeTop l i = l.bootStackTop) ∨
      ((i : ℕ) ≠ 0 ∧ stackLow l i = l.procs + i * 8216 + 24 ∧
        stackHigh l i = l.procs + i * 8216 + 8216 ∧
        codeTop l i = l.procs + i * 8216 + 7968) := by
  obtain ⟨htop, -⟩ := layout_bounds l i
  have hsize : stackSize = 8192 := rfl
  unfold stackLow stackHigh codeTop
  by_cases h : i = 0
  · simp only [if_pos h, hsize]
    exact .inl ⟨congrArg Fin.val h, trivial, trivial, trivial⟩
  · simp only [if_neg h, hsize]
    exact .inr ⟨fun hz => h (Fin.ext hz), by omega, by omega, by omega⟩

theorem own_cases (l : Layout) {i : Fin procsMax} {x : ℕ} (h : Own l i x) :
    ((i : ℕ) = 0 ∧ l.bootStackTop - 8192 ≤ x ∧ x < l.bootStackTop) ∨
      (l.procs + i * 8216 ≤ x ∧ x < l.procs + i * 8216 + 8216) := by
  have b := layout_bounds l i
  rcases h with h | h
  · rcases stack_bounds l i with sb | sb
    · exact .inl (by omega)
    · exact .inr (by omega)
  · exact .inr (by omega)

theorem own_apart (l : Layout) {i j : Fin procsMax} (h : i ≠ j) {x : ℕ} (hi : Own l i x) :
    ¬ Own l j x := by
  intro hj
  have hne : (i : ℕ) ≠ j := Fin.val_ne_of_ne h
  have bi := layout_bounds l i
  have bj := layout_bounds l j
  rcases own_cases l hi with hi | hi
  · rcases own_cases l hj with hj | hj <;> omega
  · rcases own_cases l hj with hj | hj <;> omega

theorem own_inStacks (l : Layout) {i : Fin procsMax} {x : ℕ} (h : Own l i x) : InStacks l x := by
  have b := layout_bounds l i
  have hsize : processSize = 8216 := rfl
  rcases own_cases l h with h | h
  · exact .inr h.2
  · apply Or.inl
    simp only [procsMax, hsize]
    omega

theorem own_slot (l : Layout) {i j : Fin procsMax} (hj : j ≠ i) {x : ℕ} (hx : Own l j x) :
    ¬ InSlot l i x := by
  rintro ⟨hl, hr⟩
  have hne : (j : ℕ) ≠ i := Fin.val_ne_of_ne hj
  have bi := layout_bounds l i
  have hproc : l.proc i = l.procs + i * 8216 := rfl
  rcases own_cases l hx with hx | hx <;> omega

/-- What a process does to its own memory leaves that of the others alone. -/
theorem own_kept (l : Layout) {i j : Fin procsMax} (h : j ≠ i) {m m' : Mem}
    (hm : ∀ x, InStacks l x → ¬ Own l i x → m' x = m x) {x : ℕ} (hx : Own l j x) :
    m' x = m x := hm x (own_inStacks l hx) (own_apart l h hx)

theorem codeWrites_kept (l : Layout) {i : Fin procsMax} {limit : ℕ} {m m' : Mem}
    (h : CodeWrites l i limit m m') (hl : limit ≤ stackHigh l i) :
    ∀ x, InStacks l x → ¬ Own l i x → m' x = m x := by
  intro x hx hown
  apply h x hx
  rintro ⟨h1, h2⟩
  exact hown (.inl ⟨h1, by omega⟩)

def TrapSaved (l : Layout) (m : Mem) (i : Fin procsMax) (t : Trap) : Prop :=
  ∀ r, loadWord m (l.stackTop i - 248 + 8 * slot r) = t.value r

structure Handling (l : Layout) (m : Mem) (i : Fin procsMax) (a : Activation) (done : Bool)
    (t : Trap) : Prop where
  frame : a.frame.toNat = l.stackTop i - 248
  entry : (a.entry .sp).toNat = l.stackTop i - 248
  pc : a.userPc = t.pc
  fresh : done = false → t.got = none
  answered : done = true → (t.got ≠ none ↔ t.regs .a3 = sysGetc)
  saved : TrapSaved l m i t

/-- Kernel code that process `i` may be in. -/
def CodeOk (l : Layout) (m : Mem) (i : Fin procsMax) (trap : Option Trap) : Mode → Prop
  | .handler a done => i ≠ 0 ∧ ∃ t, trap = some t ∧ Handling l m i a done t
  | .kmain => i = 0 ∧ trap = none
  | .panicked => True
  | .user _ | .ret => False

/-- A pending call of `switch_context`, with its frame and all above it in memory. -/
structure Suspended (l : Layout) (m : Mem) (i : Fin procsMax) (c : Call) (trap : Option Trap) :
    Prop where
  sp_ge : stackLow l i + 104 ≤ (c.regs .sp).toNat
  sp_le : (c.regs .sp).toNat ≤ codeTop l i
  saved : (loadWord m (l.spAddr i)).toNat = (c.regs .sp).toNat - 104
  frame : FrameAt m ((c.regs .sp).toNat - 104) 0 switchFrame c.regs
  stack : ∀ x, (c.regs .sp).toNat ≤ x → x < stackHigh l i → m x = c.mem x
  ra : (c.regs .ra).toNat ≠ l.userEntry
  code : CodeOk l m i trap c.mode

/-- A process that has not run has the frame `create_process` made. -/
structure Fresh (l : Layout) (m : Mem) (i : Fin procsMax) : Prop where
  saved : (loadWord m (l.spAddr i)).toNat = l.stackTop i - 104
  ra : (loadWord m (l.stackTop i - 104)).toNat = l.userEntry

def Parked (l : Layout) (m : Mem) (i : Fin procsMax) (call : Option Call) (trap : Option Trap) :
    ResumePoint → Prop
  | .start => i ≠ 0 ∧ call = none ∧ trap = none ∧ Fresh l m i
  | .yieldReturn | .exitReturn => ∃ c, call = some c ∧ Suspended l m i c trap

/-- `switch_context` is about to return to where the process was left. -/
def Landed (l : Layout) (m : Mem) (i : Fin procsMax) (regs : Reg → Word) (call : Option Call)
    (trap : Option Trap) : ResumePoint → Prop
  | .start => i ≠ 0 ∧ call = none ∧ trap = none ∧ (regs .ra).toNat = l.userEntry
  | .yieldReturn | .exitReturn => ∃ c, call = some c ∧ ReturnsTo l i c regs m ∧
      Suspended l m i c trap

/-- Traps of the current process enter on its stack, and its page table is in force. -/
structure Installed (l : Layout) (s : State) : Prop where
  sscratch : s.csrs .sscratch = stackTopWord l s.current
  satp : s.csrs .satp = satpOf (s.kernel.procs s.current).pageTable

section
variable {l : Layout} {i : Fin procsMax} {m m' : Mem} {call : Option Call} {trap : Option Trap}

theorem slot_le (r : Reg) : slot r ≤ 30 := by cases r <;> decide

theorem slot_ne_a0 {r : Reg} (h : r ≠ .a0) : slot r ≠ slot .a0 := by
  revert h
  cases r <;> decide

theorem own_stack {x : ℕ} (hl : stackLow l i ≤ x) (hr : x < stackHigh l i) : Own l i x :=
  .inl ⟨hl, hr⟩

theorem codeTop_bounds (l : Layout) (i : Fin procsMax) :
    stackLow l i + 104 ≤ codeTop l i ∧ codeTop l i ≤ stackHigh l i ∧ stackHigh l i < 2 ^ 32 := by
  have b := layout_bounds l i
  have sb := stack_bounds l i
  omega

theorem codeTop_user (l : Layout) (hi : i ≠ 0) :
    codeTop l i = l.stackTop i - 248 ∧ stackHigh l i = l.stackTop i := by
  unfold codeTop stackHigh
  exact ⟨if_neg hi, if_neg hi⟩

theorem TrapSaved.congr {t : Trap} (h : TrapSaved l m i t)
    (hm : ∀ x, l.stackTop i - 248 ≤ x → x < l.stackTop i → m' x = m x) :
    TrapSaved l m' i t := by
  intro r
  have hs := slot_le r
  have b := layout_bounds l i
  refine (loadWord_congr fun x hl hr => ?_).trans (h r)
  exact hm x (by omega) (by omega)

theorem CodeOk.congr {mode : Mode} (h : CodeOk l m i trap mode)
    (hm : ∀ x, codeTop l i ≤ x → x < stackHigh l i → m' x = m x) : CodeOk l m' i trap mode := by
  cases mode with
  | handler a done =>
    obtain ⟨hi, t, ht, hh⟩ := h
    obtain ⟨hcode, hhigh⟩ := codeTop_user l hi
    rw [hcode, hhigh] at hm
    exact ⟨hi, t, ht, { hh with saved := hh.saved.congr hm }⟩
  | kmain => exact h
  | panicked => trivial
  | user pc => exact h
  | ret => exact h

theorem Suspended.kept {c : Call} (h : Suspended l m i c trap)
    (hm : ∀ x, Own l i x → m' x = m x) : Suspended l m' i c trap := by
  have hlen : switchFrame.length = 13 := rfl
  have hge := h.sp_ge
  have hle := h.sp_le
  have hb := codeTop_bounds l i
  constructor
  · exact hge
  · exact hle
  · rw [loadWord_congr fun x hl hr => hm x (.inr ⟨hl, hr⟩)]
    exact h.saved
  · apply h.frame.congr
    intro x hl hr
    exact hm x (own_stack (by omega) (by omega))
  · intro x hl hr
    rw [hm x (own_stack (by omega) hr)]
    exact h.stack x hl hr
  · exact h.ra
  · apply h.code.congr
    intro x hl hr
    exact hm x (own_stack (by omega) hr)

theorem Fresh.kept (h : Fresh l m i) (hi : i ≠ 0) (hm : ∀ x, Own l i x → m' x = m x) :
    Fresh l m' i := by
  have b := layout_bounds l i
  have sb := stack_bounds l i
  have hhigh := (codeTop_user l hi).2
  constructor
  · rw [loadWord_congr fun x hl hr => hm x (.inr ⟨hl, hr⟩)]
    exact h.saved
  · rw [loadWord_congr fun x hl hr => hm x (own_stack (by omega) (by omega))]
    exact h.ra

theorem Parked.cases {p : ResumePoint} (h : Parked l m i call trap p) :
    (p = .start ∧ i ≠ 0 ∧ call = none ∧ trap = none ∧ Fresh l m i) ∨
      (p ≠ .start ∧ ∃ c, call = some c ∧ Suspended l m i c trap) := by
  cases p with
  | start => exact .inl ⟨rfl, h⟩
  | yieldReturn => exact .inr ⟨ResumePoint.noConfusion, h⟩
  | exitReturn => exact .inr ⟨ResumePoint.noConfusion, h⟩

theorem parked_of_suspended {p : ResumePoint} {c : Call} (hs : Suspended l m i c trap)
    (hp : p ≠ .start) : Parked l m i (some c) trap p := by
  cases p with
  | start => exact absurd rfl hp
  | yieldReturn => exact ⟨c, rfl, hs⟩
  | exitReturn => exact ⟨c, rfl, hs⟩

theorem Parked.suspended {p : ResumePoint} {c : Call} (h : Parked l m i (some c) trap p) :
    Suspended l m i c trap := by
  rcases h.cases with ⟨-, -, hc, -⟩ | ⟨-, c', hc, hs⟩
  · cases hc
  · cases hc
    exact hs

theorem Parked.kept {p : ResumePoint} (h : Parked l m i call trap p)
    (hm : ∀ x, Own l i x → m' x = m x) : Parked l m' i call trap p := by
  rcases h.cases with ⟨rfl, hi, hc, ht, hf⟩ | ⟨hp, c, rfl, hs⟩
  · exact ⟨hi, hc, ht, hf.kept hi hm⟩
  · exact parked_of_suspended (hs.kept hm) hp

end

section
variable {l : Layout} {s t : State} {pc : Word} {a : Activation} {done : Bool}

theorem Installed.congr (h : Installed l s) (hcur : t.current = s.current)
    (htable : (t.kernel.procs s.current).pageTable = (s.kernel.procs s.current).pageTable)
    (hsscratch : t.csrs .sscratch = s.csrs .sscratch) (hsatp : t.csrs .satp = s.csrs .satp) :
    Installed l t := by
  constructor
  · rw [hsscratch, hcur, h.sscratch]
  · rw [hsatp, hcur, h.satp, htable]

theorem stackTopWord_toNat (l : Layout) (i : Fin procsMax) :
    (stackTopWord l i).toNat = l.stackTop i := by
  have b := layout_bounds l i
  unfold stackTopWord
  rw [BitVec.toNat_ofNat]
  omega

structure Trapped (l : Layout) (s : State) (pc : Word) (t : State) : Prop where
  sched : t.sched = withMem s.sched t.mem
  calls : t.calls = s.calls
  traps : t.traps = update s.traps s.current (some ⟨s.regs, pc, none⟩)
  input : t.input = s.input
  csrs : t.csrs = update s.csrs .sepc pc
  kept : ∀ x, InStacks l x → ¬ Own l s.current x → t.mem x = s.mem x
  handling : ∃ a, t.mode = .handler a false ∧
    Handling l t.mem s.current a false ⟨s.regs, pc, none⟩

theorem trapFrom_spec (hi : s.current ≠ 0) (hin : Installed l s) (pc : Word) :
    Trapped l s pc (trapFrom s pc) := by
  have b := layout_bounds l s.current
  have sb := stack_bounds l s.current
  have hz : (s.current : ℕ) ≠ 0 := fun h => hi (Fin.ext h)
  have htop : (update s.csrs .sepc pc .sscratch).toNat = l.stackTop s.current := by
    rw [update_of_ne (by decide), hin.sscratch, stackTopWord_toNat]
  have he := exec_trapEntry ⟨s.regs, update s.csrs .sepc pc, s.mem⟩
    (by dsimp only; omega)
  dsimp only at he
  rw [htop] at he
  unfold trapFrom
  generalize Hart.exec _ trapEntry = h at he ⊢
  constructor
  · rfl
  · rfl
  · rfl
  · rfl
  · exact he.csrs
  · intro x _ hx
    apply he.outside
    by_contra hc
    exact hx (own_stack (by omega) (by omega))
  · refine ⟨_, rfl, ?_⟩
    constructor
    · exact (congrArg BitVec.toNat he.arg).trans he.sp
    · exact he.sp
    · have hpc := congrFun he.csrs .sepc
      dsimp only at hpc
      rwa [update_self] at hpc
    · exact fun _ => rfl
    · intro hd
      cases hd
    · intro r
      refine (he.frame r).trans ?_
      unfold Trap.value
      split
      · next hr => rw [hr]; rfl
      · rfl

theorem TrapSaved.answer {i : Fin procsMax} {m : Mem} {t : Trap} (h : TrapSaved l m i t)
    (c : UInt8) : TrapSaved l (storeWord m (l.stackTop i - 248 + 8 * slot .a0) (charWord c)) i
      { t with got := some c } := by
  intro r
  by_cases hr : r = .a0
  · subst hr
    rw [loadWord_storeWord_same]
    rfl
  · have hs := slot_ne_a0 hr
    rw [loadWord_storeWord_apart _ _ (by omega), h r]
    simp only [Trap.value, if_neg hr]

structure Returned (s : State) (tr : Trap) (t : State) : Prop where
  sched : t.sched = s.sched
  calls : t.calls = s.calls
  traps : t.traps = update s.traps s.current none
  csrs : t.csrs = update s.csrs .sepc (tr.pc + 4)
  mode : t.mode = .user (tr.pc + 4)
  regs : ∀ r, t.regs r = tr.value r

theorem returnFrom_spec {tr : Trap} {regs : Reg → Word} (hh : Handling l s.mem s.current a done tr)
    (hsp : regs .sp = a.entry .sp) : Returned s tr (returnFrom s a regs) := by
  have b := layout_bounds l s.current
  have hentry := hh.entry
  obtain ⟨hregs, hcsrs, hmem⟩ :=
    exec_trapExit ⟨regs, update s.csrs .sepc (a.userPc + 4), s.mem⟩ (by
      dsimp only
      rw [hsp]
      omega)
  dsimp only at hregs hcsrs hmem
  rw [hsp, hentry] at hregs
  rw [hh.pc] at hregs hcsrs hmem
  unfold returnFrom
  rw [hh.pc]
  generalize Hart.exec _ trapExit = h at hregs hcsrs hmem ⊢
  constructor
  · dsimp only
    rw [hmem]
    rfl
  · rfl
  · rfl
  · exact hcsrs
  · dsimp only
    rw [hcsrs, update_self]
  · exact fun r => (hregs r).trans (hh.saved r)

end

section
variable {l : Layout} {s : State} {prev next : Fin procsMax} {limit : ℕ} {r : Reg → Word}
  {m : Mem} {mode : Mode} {call : Option Call} {trap trap' : Option Trap} {p : ResumePoint}

theorem Landed.cases {i : Fin procsMax} {regs : Reg → Word} (h : Landed l m i regs call trap p) :
    (p = .start ∧ i ≠ 0 ∧ call = none ∧ trap = none ∧ (regs .ra).toNat = l.userEntry) ∨
      ∃ c, call = some c ∧ ReturnsTo l i c regs m ∧ Suspended l m i c trap := by
  cases p with
  | start => exact .inl ⟨rfl, h⟩
  | yieldReturn => exact .inr h
  | exitReturn => exact .inr h

theorem landed_of_suspended {i : Fin procsMax} {regs : Reg → Word} {c : Call}
    (hr : ReturnsTo l i c regs m) (hs : Suspended l m i c trap) (hp : p ≠ .start) :
    Landed l m i regs (some c) trap p := by
  cases p with
  | start => exact absurd rfl hp
  | yieldReturn => exact ⟨c, rfl, hr, hs⟩
  | exitReturn => exact ⟨c, rfl, hr, hs⟩

theorem Suspended.slot_unique {i j : Fin procsMax} {m' : Mem} {c c' : Call}
    (h : Suspended l m i c trap) (h' : Suspended l m' j c' trap')
    (hsp : c.regs .sp = c'.regs .sp) : i = j := by
  have bi := layout_bounds l i
  have bj := layout_bounds l j
  have si := stack_bounds l i
  have sj := stack_bounds l j
  have hi := h.sp_le
  have hi' := h.sp_ge
  have hj := h'.sp_le
  have hj' := h'.sp_ge
  rw [hsp] at hi hi'
  apply Fin.ext
  omega

theorem Suspended.below {c : Call} (h : Suspended l m next c trap) :
    (loadWord m (l.spAddr next)).toNat + 104 < 2 ^ 64 := by
  have hcode := codeTop_bounds l next
  have hge := h.sp_ge
  have hle := h.sp_le
  have hsaved := h.saved
  omega

theorem Parked.below (hp : Parked l m next call trap p) :
    (loadWord m (l.spAddr next)).toNat + 104 < 2 ^ 64 := by
  have b := layout_bounds l next
  rcases hp.cases with ⟨-, -, -, -, hf⟩ | ⟨-, c, -, hs⟩
  · have hsaved := hf.saved
    omega
  · exact hs.below

theorem Suspended.returnsTo {c : Call} {h : Hart} (hs : Suspended l h.mem next c trap)
    (ha1 : (h.regs .a1).toNat = l.spAddr next) :
    ReturnsTo l next c (h.exec switchLoad).regs h.mem := by
  have hge := hs.sp_ge
  have hbelow := hs.below
  have hsaved := hs.saved
  rw [← ha1] at hbelow hsaved
  obtain ⟨hf, hsp, -, -⟩ := exec_switchLoad h rfl hbelow
  constructor
  · apply BitVec.eq_of_toNat_eq
    omega
  · rw [hsaved] at hf
    exact hf.unique hs.frame
  · exact hs.stack

theorem Parked.landed {h : Hart} (hp : Parked l h.mem next call trap p)
    (ha1 : (h.regs .a1).toNat = l.spAddr next) :
    Landed l h.mem next (h.exec switchLoad).regs call trap p := by
  have hbelow := hp.below
  rw [← ha1] at hbelow
  rcases hp.cases with ⟨rfl, hi, hc, ht, hf⟩ | ⟨hstart, c, rfl, hs⟩
  · obtain ⟨hframe, -, -, -⟩ := exec_switchLoad h rfl hbelow
    refine ⟨hi, hc, ht, ?_⟩
    rw [← hframe 0 .ra rfl, ha1, hf.saved]
    exact hf.ra
  · exact landed_of_suspended (hs.returnsTo ha1) hs hstart

/-- The call of `switch_context` by `prev`, up to its `ret` in `next`. -/
structure Switched (l : Layout) (prev next : Fin procsMax) (h h' : Hart) (mode : Mode)
    (trap : Option Trap) (call : Option Call) (trap' : Option Trap) (p : ResumePoint) :
    Prop where
  csrs : h'.csrs = h.csrs
  kept : ∀ x, InStacks l x → ¬ Own l prev x → h'.mem x = h.mem x
  suspended : Suspended l h'.mem prev ⟨h.regs, h.mem, mode⟩ trap
  landed : Landed l h'.mem next h'.regs call trap' p

theorem exec_switchContext (hr : CallRegs l prev next limit r) (hlimit : limit ≤ codeTop l prev)
    (hne : next ≠ prev) (csrs : Csr → Word) (hcode : CodeOk l m prev trap mode)
    (hp : Parked l m next call trap' p) :
    Switched l prev next ⟨r, csrs, m⟩ (Hart.exec ⟨r, csrs, m⟩ switchContext) mode trap call
      trap' p := by
  have b := layout_bounds l prev
  have sb := stack_bounds l prev
  have hge := hr.sp_ge
  have hle := hr.sp_le
  have ha0 := hr.a0
  have hbounds := codeTop_bounds l prev
  have hout := exec_switchSave ⟨r, csrs, m⟩ (by dsimp only; omega) (by dsimp only; omega)
  rw [switchContext, exec_append]
  generalize Hart.exec _ switchSave = u at hout ⊢
  have houtside := hout.outside
  have hframe := hout.frame
  have hsaved := hout.saved
  have ha1 := hout.next
  dsimp only at houtside hframe hsaved ha1
  rw [ha0] at houtside hsaved
  have hkept : ∀ x, InStacks l x → ¬ Own l prev x → u.mem x = m x := by
    intro x _ hx
    simp only [Own] at hx
    exact houtside x (by omega) (by omega)
  have hparked := hp.kept fun x hx => own_kept l hne hkept hx
  have hbelow := hparked.below
  have hland := hparked.landed (h := u) (by rw [ha1]; exact hr.a1)
  obtain ⟨-, -, hcsrs, hmem⟩ := exec_switchLoad u rfl (by rw [ha1, hr.a1]; exact hbelow)
  rw [← hmem] at hland
  constructor
  · exact hcsrs.trans hout.csrs
  · intro x hx hown
    rw [hmem]
    exact hkept x hx hown
  · rw [hmem]
    constructor
    · exact hge
    · exact hle.trans hlimit
    · exact hsaved
    · exact hframe
    · intro x hl hx
      exact houtside x (.inr hl) (by dsimp only at hl; omega)
    · exact hr.ra
    · apply hcode.congr
      intro x hl hx
      exact houtside x (.inr (by omega)) (by omega)
  · exact hland

end

section
variable {l : Layout} {base : List BuddyTiling.Block} {t t' : ProcTable}
  {image imageSize : ℕ} {i : Fin procsMax}

theorem loadWord_toNat (m : Mem) (a : ℕ) : (loadWord m a).toNat = load64 m a := by
  unfold loadWord
  rw [BitVec.toNat_ofNat, Nat.mod_eq_of_lt (load64_lt m a)]

theorem initialFrame_ra (l : Layout) (m : Mem) (sp : ℕ) :
    load64 (initialFrame l m sp).1 (sp - 104) = l.userEntry := by
  have hue := l.userEntry_inside.2
  have hend := l.ram_end
  have hsp := pushWords_sp (List.replicate 12 0) m sp
  rw [List.length_replicate] at hsp
  unfold initialFrame
  rw [List.foldl_append, List.foldl_cons, List.foldl_nil, pushWord, hsp]
  have hat : sp - 104 = sp - 8 * 12 - 8 := by omega
  rw [hat, load64_store64_same]
  exact Nat.mod_eq_of_lt (by omega)

theorem framed_fresh (l : Layout) (t : ProcTable) (i : Fin procsMax) :
    Fresh l (framed l t i).mem i := by
  have b := layout_bounds l i
  have hsp := initialFrame_sp l t.pages.mem (l.stackTop i)
  have hra := initialFrame_ra l t.pages.mem (l.stackTop i)
  unfold framed
  generalize initialFrame l t.pages.mem (l.stackTop i) = f at hsp hra ⊢
  constructor
  · rw [loadWord_toNat, load64_store64_same, hsp]
    exact Nat.mod_eq_of_lt (by omega)
  · rw [loadWord_toNat, load64_store64_disjoint _ _ _ _ (by omega), hra]

theorem inStacks_held (l : Layout) (g : List ℕ) {x : ℕ} (hx : InStacks l x) :
    Held (heapOf l) base g x := by
  have b := layout_bounds l 0
  have hsize : processSize = 8216 := rfl
  have hstart : (heapOf l).heapStart = l.freeRam := rfl
  simp only [InStacks, procsMax, hsize] at hx
  apply Or.inl
  omega

theorem createProcess_stacks (ho : Owned (heapOf l) base t.pages)
    (hc : createProcess kallocPage l t image imageSize = some (i, t'))
    (hok : 0 ∉ t'.pages.granted) {x : ℕ} (hx : InStacks l x) :
    t'.pages.mem x = (framed l t i).mem x := by
  obtain ⟨loc, frames, hs⟩ := createProcess_space (kallocPage_allocator _ _) ho hc hok
  exact hs.kept x (inStacks_held l _ hx)

theorem createProcess_root (ho : Owned (heapOf l) base t.pages)
    (hc : createProcess kallocPage l t image imageSize = some (i, t'))
    (hok : 0 ∉ t'.pages.granted) :
    pageSize ∣ (t'.procs i).pageTable ∧ (t'.procs i).pageTable < 2 ^ 32 := by
  have hk := kallocPage_allocator (heapOf l) base
  have hend := l.ram_end
  have htop : (heapOf l).heapEnd = l.freeRam + 128 * 1024 * 1024 := rfl
  obtain ⟨-, hb, hp⟩ := createProcess_cases hc
  have hn : (kallocPage (framed l t i)).1 ≠ 0 := by
    intro h0
    apply hok
    apply (buildSpace_grown hk hb).subset
    rw [kallocPage_granted, h0]
    exact List.mem_cons_self
  have hg := hk.grants _ (framed_owned ho i) hn
  have hroot : (t'.procs i).pageTable = (kallocPage (framed l t i)).1 := by rw [hp, update_self]
  rw [hroot]
  exact ⟨hg.aligned, by have := hg.inside; omega⟩

end

end SavedContexts
