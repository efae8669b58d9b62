import OppoOS.KernelGuarantees
import OppoOS.TaggedStream

/-!
# The console in runs of the whole kernel

What the processes ask to print, what reaches `sbi_putc`, what the firmware delivers and what
the processes find in `a0`. The registers pass through trap frames that other processes,
switches and compiled code run beside; no character is lost, repeated or handed to another
process.
-/
namespace Console

open RiscV ContextSwitch Processes DeviceInit SystemCalls SavedContexts TrapInvariant KernelRuns TaggedStream
open KernelGuarantees Function
open TrapCoherence (InUser)
open KernelMemory (IsKernel)

/-- `(char)` of a register. -/
def low (w : Word) : UInt8 := UInt8.ofNat w.toNat

/-- Characters with the process they belong to: `asked` when it executes the `ecall` of
`SYS_PUTC`, `printed` when the kernel calls `putc(f->a0)`, `taken` when `getc` returns a
character to its `SYS_GETC`, `received` when it goes on behind the `ecall`. -/
structure Log where
  asked : List (Fin procsMax × UInt8)
  printed : List (Fin procsMax × UInt8)
  arrived : List UInt8
  taken : List (Fin procsMax × UInt8)
  received : List (Fin procsMax × UInt8)

def record (s : State) (e : SystemCalls.Event) (t : State) (log : Log) : Log :=
  match e with
  | .ecall =>
    if s.regs .a3 = sysPutc then
      { log with asked := log.asked ++ [(s.current, low (s.regs .a0))] }
    else log
  | .syscall =>
    match s.mode with
    | .handler a _ =>
      if field s.mem a.frame .a3 = sysPutc then
        { log with printed := log.printed ++ [(s.current, low (field s.mem a.frame .a0))] }
      else log
    | _ => log
  | .getc c => { log with taken := log.taken ++ [(s.current, c)] }
  | .sysret =>
    if t.regs .a3 = sysGetc then
      { log with received := log.received ++ [(s.current, low (t.regs .a0))] }
    else log
  | .input => { log with arrived := log.arrived ++ t.input.drop s.input.length }
  | _ => log

theorem record_ecall (s t : State) (log : Log) : record s .ecall t log =
    if s.regs .a3 = sysPutc then
      { log with asked := log.asked ++ [(s.current, low (s.regs .a0))] }
    else log := rfl

theorem record_syscall {s : State} {a : Activation} {done : Bool} (hm : s.mode = .handler a done)
    (t : State) (log : Log) : record s .syscall t log =
      if field s.mem a.frame .a3 = sysPutc then
        { log with printed := log.printed ++ [(s.current, low (field s.mem a.frame .a0))] }
      else log := by
  cases s
  cases hm
  rfl

theorem record_sysret (s t : State) (log : Log) : record s .sysret t log =
    if t.regs .a3 = sysGetc then
      { log with received := log.received ++ [(s.current, low (t.regs .a0))] }
    else log := rfl

/-- The steps outside `IsKernel` do not reach the console. -/
def recordStep (s : State) (e : KernelRuns.Event) (t : State) (log : Log) : Log :=
  match e with
  | .kernel e => record s e t log
  | _ => log

inductive Logged {δ : Type} (bus : Bus δ) (l : Layout) (blk : BlkDevice) :
    Log → List ℕ → State → Prop where
  | boot {s} : Booted bus l blk s → Logged bus l blk ⟨[], [], s.input, [], []⟩ [] s
  | step {log sizes s e t} : Logged bus l blk log sizes s → Step l (driverBlocks blk) s e t →
      Logged bus l blk (recordStep s e t log) (e.sizes ++ sizes) t

def unprinted (s : State) (p : Fin procsMax) : List UInt8 :=
  match s.mode, s.traps p with
  | .handler _ false, some tr =>
    if p = s.current ∧ tr.regs .a3 = sysPutc then [low (tr.regs .a0)] else []
  | _, _ => []

def unreturned (s : State) (p : Fin procsMax) : List UInt8 :=
  ((s.traps p).bind Trap.got).toList

structure Exact (s : State) (log : Log) : Prop where
  input : log.arrived = log.taken.map Prod.snd ++ s.input
  printed : Balanced log.asked log.printed (unprinted s)
  received : Balanced log.taken log.received (unreturned s)

def Waits (s : State) : Prop :=
  ∀ p c a done, s.calls p = some c → c.mode = .handler a done →
    ∃ tr, s.traps p = some tr ∧ tr.regs .a3 = sysGetc

theorem low_charWord (c : UInt8) : low (charWord c) = c := by
  have hlt := c.toNat_lt
  rw [low, charWord, BitVec.toNat_ofNat, Nat.mod_eq_of_lt (by omega), UInt8.ofNat_toNat]

section
variable {l : Layout} {s t : State} {e : SystemCalls.Event} {log : Log} {p : Fin procsMax}

theorem unprinted_other (hp : p ≠ s.current) : unprinted s p = [] := by
  unfold unprinted
  split
  · exact if_neg fun hc => hp hc.1
  · rfl

theorem unprinted_mode {m : Mode} (hm : s.mode = m) (hne : ∀ a, m ≠ .handler a false) :
    unprinted s p = [] := by
  unfold unprinted
  split
  · next a tr hmode _ => exact absurd (hm.symm.trans hmode) (hne a)
  · rfl

theorem unprinted_current {a : Activation} {tr : Trap} (hm : s.mode = .handler a false)
    (htr : s.traps s.current = some tr) :
    unprinted s s.current = if tr.regs .a3 = sysPutc then [low (tr.regs .a0)] else [] := by
  simp only [unprinted, hm, htr, true_and]

theorem unprinted_of_ne {a : Activation} {tr : Trap} (hm : s.mode = .handler a false)
    (htr : s.traps s.current = some tr) (hne : tr.regs .a3 ≠ sysPutc) : unprinted s p = [] := by
  by_cases hp : p = s.current
  · rw [hp, unprinted_current hm htr, if_neg hne]
  · exact unprinted_other hp

theorem unprinted_congr (hm : t.mode = s.mode) (ht : t.traps = s.traps)
    (hcur : t.current = s.current) : unprinted t p = unprinted s p := by
  unfold unprinted
  rw [hm, ht, hcur]

theorem field_eq {a : Activation} {done : Bool} {tr : Trap}
    (hh : Handling l s.mem s.current a done tr) (r : Reg) :
    field s.mem a.frame r = tr.value r := by
  rw [field, hh.frame, hh.saved r]

theorem field_a3 {a : Activation} {done : Bool} {tr : Trap}
    (hh : Handling l s.mem s.current a done tr) : field s.mem a.frame .a3 = tr.regs .a3 :=
  field_eq hh .a3

theorem Exact.same (hx : Exact s log) (hi : t.input = s.input) (ht : t.traps = s.traps)
    (hu : ∀ p, unprinted t p = unprinted s p) : Exact t log where
  input := by rw [hi, hx.input]
  printed := hx.printed.congr hu
  received := hx.received.congr fun p => by rw [unreturned, unreturned, ht]

theorem Exact.plain (hx : Exact s log) (hi : t.input = s.input) (ht : t.traps = s.traps)
    (hs : ∀ p, unprinted s p = []) {m : Mode} (hm : t.mode = m)
    (hne : ∀ a, m ≠ .handler a false) : Exact t log :=
  hx.same hi ht fun p => by rw [unprinted_mode hm hne, hs p]

theorem ecall_exact (h : Invariant l s) (hx : Exact s log) {pc : Word}
    (hm : s.mode = .user pc) : Exact (trapFrom s pc) (record s .ecall (trapFrom s pc) log) := by
  obtain ⟨hi, -, hnone, hin⟩ := (running_user hm).mp h.running
  obtain ⟨t, ht⟩ : ∃ t, t = trapFrom s pc := ⟨_, rfl⟩
  have hspec := trapFrom_spec hi hin pc
  rw [← ht] at hspec ⊢
  obtain ⟨a, hmode, hh⟩ := hspec.handling
  have hcur := current_withMem hspec.sched
  have htr : t.traps t.current = some ⟨s.regs, pc, none⟩ := by
    rw [hspec.traps, hcur, update_self]
  have hbefore : ∀ q, unprinted s q = [] := fun q => unprinted_mode hm nofun
  have hafter := unprinted_current hmode htr
  have hreturned : ∀ q, unreturned t q = unreturned s q := by
    intro q
    rw [unreturned, unreturned, hspec.traps]
    by_cases hq : q = s.current
    · rw [hq, update_self, hnone]
      rfl
    · rw [update_of_ne hq]
  have hinput : log.arrived = log.taken.map Prod.snd ++ t.input := by
    rw [hspec.input, hx.input]
  rw [record_ecall]
  rw [hcur] at hafter
  by_cases hput : s.regs .a3 = sysPutc
  · rw [if_pos hput] at hafter ⊢
    refine ⟨hinput, hx.printed.request ?_ fun q hq => ?_, hx.received.congr hreturned⟩
    · rw [hafter, hbefore, List.nil_append]
    · rw [hbefore, unprinted_other (by rwa [hcur])]
  · rw [if_neg hput] at hafter ⊢
    refine ⟨hinput, hx.printed.congr fun q => ?_, hx.received.congr hreturned⟩
    rw [hbefore]
    by_cases hq : q = s.current
    · rw [hq, hafter]
    · exact unprinted_other (by rwa [hcur])

theorem syscall_exact (h : Invariant l s) (hx : Exact s log) {a : Activation}
    (hm : s.mode = .handler a false) :
    Exact { s with mode := .handler a true }
      (record s .syscall { s with mode := .handler a true } log) := by
  obtain ⟨-, -, -, tr, htr, hh⟩ := (running_handler hm).mp h.running
  have hbefore := unprinted_current hm htr
  have hafter : ∀ q, unprinted { s with mode := .handler a true } q = [] := fun q =>
    unprinted_mode rfl nofun
  have ha0 : field s.mem a.frame .a0 = tr.regs .a0 := by
    rw [field_eq hh, Trap.value, if_pos rfl, hh.fresh rfl]
    rfl
  rw [record_syscall hm, field_a3 hh, ha0]
  by_cases hput : tr.regs .a3 = sysPutc
  · rw [if_pos hput] at hbefore ⊢
    refine ⟨hx.input, hx.printed.serve ?_ fun q hq => ?_, hx.received.congr fun _ => rfl⟩
    · rw [hbefore, hafter]
    · rw [hafter, unprinted_other hq]
  · rw [if_neg hput]
    exact hx.same rfl rfl fun q => by rw [hafter, unprinted_of_ne hm htr hput]

theorem getc_exact (h : Invariant l s) (hx : Exact s log) {a : Activation}
    (hm : s.mode = .handler a false) (hf : field s.mem a.frame .a3 = sysGetc) {c : UInt8}
    {rest : List UInt8} (hin : s.input = c :: rest) (hmode : t.mode = .handler a true)
    (hinput : t.input = rest) (htraps : t.traps = update s.traps s.current
      ((s.traps s.current).map fun tr => { tr with got := some c })) :
    Exact t (record s (.getc c) t log) := by
  obtain ⟨-, -, -, tr, htr, hh⟩ := (running_handler hm).mp h.running
  rw [field_a3 hh] at hf
  have hne : tr.regs .a3 ≠ sysPutc := by
    rw [hf]
    decide
  have hafter : ∀ q, unprinted t q = [] := fun q => unprinted_mode hmode nofun
  constructor
  · change log.arrived = (log.taken ++ [(s.current, c)]).map Prod.snd ++ t.input
    rw [hinput, List.map_append, List.append_assoc, hx.input, hin]
    rfl
  · exact hx.printed.congr fun q => by rw [hafter, unprinted_of_ne hm htr hne]
  · refine hx.received.request ?_ fun q hq => ?_
    · rw [unreturned, unreturned, htraps, update_self, htr]
      simp [hh.fresh rfl]
    · rw [unreturned, unreturned, htraps, update_of_ne hq]

theorem sysret_exact (h : Invariant l s) (hx : Exact s log) {a : Activation}
    {regs : Reg → Word} (hm : s.mode = .handler a true) (hsp : regs .sp = a.entry .sp) :
    Exact (returnFrom s a regs) (record s .sysret (returnFrom s a regs) log) := by
  obtain ⟨-, -, -, tr, htr, hh⟩ := (running_handler hm).mp h.running
  obtain ⟨t, ht⟩ : ∃ t, t = returnFrom s a regs := ⟨_, rfl⟩
  have hspec := returnFrom_spec hh hsp
  have hin : (returnFrom s a regs).input = s.input := rfl
  rw [← ht] at hspec hin ⊢
  have hinput : log.arrived = log.taken.map Prod.snd ++ t.input := by
    rw [hin, hx.input]
  have hprinted : Balanced log.asked log.printed (unprinted t) := hx.printed.congr fun q => by
    rw [unprinted_mode hspec.mode nofun, unprinted_mode hm nofun]
  have hother : ∀ q, q ≠ s.current → unreturned t q = unreturned s q := by
    intro q hq
    rw [unreturned, unreturned, hspec.traps, update_of_ne hq]
  have hnone : unreturned t s.current = [] := by
    rw [unreturned, hspec.traps, update_self]
    rfl
  have hgot : unreturned s s.current = tr.got.toList := by
    rw [unreturned, htr]
    rfl
  have ha3 : t.regs .a3 = tr.regs .a3 := by
    rw [hspec.regs]
    rfl
  have hanswered := hh.answered rfl
  rw [record_sysret, ha3]
  by_cases hget : tr.regs .a3 = sysGetc
  · obtain ⟨c, hc⟩ := Option.ne_none_iff_exists'.mp (hanswered.mpr hget)
    have ha0 : t.regs .a0 = charWord c := by
      rw [hspec.regs, Trap.value, if_pos rfl, hc]
      rfl
    rw [if_pos hget, ha0, low_charWord]
    refine ⟨hinput, hprinted, hx.received.serve ?_ hother⟩
    rw [hgot, hc, hnone]
    rfl
  · have hc : tr.got = none := by
      by_contra hn
      exact hget (hanswered.mp hn)
    rw [if_neg hget]
    refine ⟨hinput, hprinted, hx.received.congr fun q => ?_⟩
    by_cases hq : q = s.current
    · rw [hq, hnone, hgot, hc]
      rfl
    · exact hother q hq

theorem yields_unprinted (h : Invariant l s) {k : Kernel} {caller : Scheduler.ResumePoint}
    {limit : ℕ} {mode : Mode} (hy : Yields l s k caller limit mode) :
    unprinted s p = [] ∧ ∀ a done, mode = .handler a done →
      ∃ tr, s.traps s.current = some tr ∧ tr.regs .a3 = sysGetc := by
  have trap : ∀ {a}, s.mode = .handler a false → ∀ {n}, field s.mem a.frame .a3 = n →
      ∃ tr, s.traps s.current = some tr ∧ tr.regs .a3 = n := by
    intro a hm n hf
    obtain ⟨-, -, -, tr, htr, hh⟩ := (running_handler hm).mp h.running
    exact ⟨tr, htr, (field_a3 hh).symm.trans hf⟩
  cases hy with
  | getc a hm hf hin =>
    obtain ⟨tr, htr, hcall⟩ := trap hm hf
    refine ⟨unprinted_of_ne hm htr ?_, fun _ _ _ => ⟨tr, htr, hcall⟩⟩
    rw [hcall]
    decide
  | exit a hm hf =>
    obtain ⟨tr, htr, hcall⟩ := trap hm hf
    refine ⟨unprinted_of_ne hm htr ?_, nofun⟩
    rw [hcall]
    decide
  | kmain hm => exact ⟨unprinted_mode hm nofun, nofun⟩

theorem switchTo_console (l : Layout) (s : State) (k : Kernel) (caller : Scheduler.ResumePoint)
    (mode : Mode) (r : Reg → Word) :
    (switchTo l s k caller mode r).input = s.input ∧
      (switchTo l s k caller mode r).traps = s.traps ∧
      (switchTo l s k caller mode r).mode = .ret := by
  unfold switchTo
  dsimp only
  generalize Hart.exec _ switchContext = g
  exact ⟨rfl, rfl, rfl⟩

theorem resumed_unprinted (hw : Waits s) {c : Call} (hc : s.calls s.current = some c)
    (hm : t.mode = c.mode) (ht : t.traps s.current = s.traps s.current)
    (hcur : t.current = s.current) : unprinted t p = [] := by
  cases hmode : c.mode with
  | handler a done =>
    rw [hmode] at hm
    cases done with
    | false =>
      obtain ⟨tr, htr, hcall⟩ := hw s.current c a false hc hmode
      refine unprinted_of_ne hm (by rw [hcur, ht, htr]) ?_
      rw [hcall]
      decide
    | true => exact unprinted_mode hm nofun
  | _ => exact unprinted_mode (hm.trans hmode) nofun

theorem step_exact (h : Invariant l s) (hw : Waits s) (hx : Exact s log)
    (hs : SystemCalls.Step l s e t) (he : IsKernel e) : Exact t (record s e t log) := by
  cases hs with
  | user pc regs pc' m hm => exact he.elim
  | ecall pc hm => exact ecall_exact h hx hm
  | fault pc hm =>
    obtain ⟨hi, -, -, hin⟩ := (running_user hm).mp h.running
    have hspec := trapFrom_spec hi hin pc
    generalize trapFrom s pc = u at hspec ⊢
    exact hx.plain hspec.input rfl (fun p => unprinted_mode hm nofun) rfl nofun
  | work a done m hm => exact he.elim
  | workMain m hm => exact he.elim
  | syscall a hm hf => exact syscall_exact h hx hm
  | getc a c rest hm hf hin => exact getc_exact h hx hm hf hin rfl rfl rfl
  | unknown a hm hf =>
    obtain ⟨-, -, -, tr, htr, hh⟩ := (running_handler hm).mp h.running
    have hne : tr.regs .a3 ≠ sysPutc := by
      rintro hc
      rw [field_a3 hh, hc] at hf
      exact hf (by decide)
    exact hx.plain rfl rfl (fun p => unprinted_of_ne hm htr hne) rfl nofun
  | keep k caller limit mode hy hn =>
    obtain ⟨hmode, -⟩ := yields_kept hy (yields_yielding hy h) hn
    exact hx.same rfl rfl fun p => unprinted_congr hmode rfl hn
  | switch k caller limit mode r hy hn hr =>
    obtain ⟨hinput, htraps, hmode⟩ := switchTo_console l s k caller mode r
    exact hx.plain hinput htraps (fun p => (yields_unprinted h hy).1) hmode nofun
  | dispatch regs hm hra => exact hx.plain rfl rfl (fun p => unprinted_mode hm nofun) rfl nofun
  | resume i c hm hc hr =>
    obtain ⟨rfl, -⟩ := h.resumed hm hc hr
    refine hx.same rfl rfl fun p => ?_
    rw [unprinted_mode hm nofun]
    exact resumed_unprinted hw hc rfl rfl rfl
  | sysret a regs hm hsp hsaved => exact sysret_exact h hx hm hsp
  | create image imageSize i t hm ho hc hok => exact he.elim
  | input c =>
    refine ⟨?_, hx.printed, hx.received⟩
    change log.arrived ++ (s.input ++ [c]).drop s.input.length =
      log.taken.map Prod.snd ++ (s.input ++ [c])
    rw [List.drop_left, hx.input, List.append_assoc]

theorem Waits.of_calls (hw : Waits s) (hc : t.calls = s.calls)
    (ht : ∀ q, s.calls q = none ∨ t.traps q = s.traps q) : Waits t := by
  intro q c a done hq hmode
  rw [hc] at hq
  obtain ⟨tr, htr, hcall⟩ := hw q c a done hq hmode
  rcases ht q with hnone | hsame
  · rw [hnone] at hq
    cases hq
  · exact ⟨tr, hsame.trans htr, hcall⟩

theorem Waits.of_current (hw : Waits s) (hnone : s.calls s.current = none)
    (hc : t.calls = s.calls) (ht : ∀ q, q ≠ s.current → t.traps q = s.traps q) : Waits t := by
  refine hw.of_calls hc fun q => ?_
  by_cases hq : q = s.current
  · exact .inl (by rw [hq, hnone])
  · exact .inr (ht q hq)

theorem step_waits (h : Invariant l s) (hw : Waits s) (hs : SystemCalls.Step l s e t)
    (he : IsKernel e) : Waits t := by
  cases hs with
  | user pc regs pc' m hm => exact he.elim
  | ecall pc hm =>
    obtain ⟨hi, hnone, -, hin⟩ := (running_user hm).mp h.running
    have hspec := trapFrom_spec hi hin pc
    exact hw.of_current hnone hspec.calls fun q hq => by rw [hspec.traps, update_of_ne hq]
  | fault pc hm =>
    obtain ⟨hi, -, -, hin⟩ := (running_user hm).mp h.running
    have hspec := trapFrom_spec hi hin pc
    generalize trapFrom s pc = u at hspec ⊢
    exact hw.of_calls hspec.calls fun _ => .inr rfl
  | work a done m hm => exact he.elim
  | workMain m hm => exact he.elim
  | getc a c rest hm hf hin =>
    obtain ⟨hnone, -⟩ := (running_handler hm).mp h.running
    exact hw.of_current hnone rfl fun q hq => update_of_ne hq _ _
  | switch k caller limit mode r hy hn hr =>
    obtain ⟨-, htraps, -⟩ := switchTo_console l s k caller mode r
    have hcalls : (switchTo l s k caller mode r).calls =
        update s.calls s.current (some ⟨r, s.mem, mode⟩) := rfl
    intro q c a done hc hmode
    rw [hcalls] at hc
    rw [htraps]
    by_cases hq : q = s.current
    · rw [hq, update_self, Option.some.injEq] at hc
      rw [← hc] at hmode
      rw [hq]
      exact (yields_unprinted (p := q) h hy).2 a done hmode
    · rw [update_of_ne hq] at hc
      exact hw q c a done hc hmode
  | resume i c hm hc hr =>
    intro q c' a done hq hmode
    change update s.calls i none q = some c' at hq
    have hqi : q ≠ i := by
      rintro rfl
      rw [update_self] at hq
      cases hq
    rw [update_of_ne hqi] at hq
    exact hw q c' a done hq hmode
  | sysret a regs hm hsp hsaved =>
    obtain ⟨hnone, -, -, tr, -, hh⟩ := (running_handler hm).mp h.running
    have hspec := returnFrom_spec hh hsp
    exact hw.of_current hnone hspec.calls fun q hq => by rw [hspec.traps, update_of_ne hq]
  | create image imageSize i t hm ho hc hok => exact he.elim
  | _ => exact hw.of_calls rfl fun _ => .inr rfl

end

section
variable {δ : Type} {bus : Bus δ} {l : Layout} {blk : BlkDevice} {sizes : List ℕ} {s t : State}
  {log : Log} {e : KernelRuns.Event}

theorem boot_exact (hb : Booted bus l blk s) : Exact s ⟨[], [], s.input, [], []⟩ ∧ Waits s := by
  cases hb with
  | mk m d k d' regs csrs input hk =>
    refine ⟨⟨rfl, fun p => ?_, fun p => rfl⟩, fun p c a done hc => ?_⟩
    · rw [unprinted_mode (show _ = Mode.kmain from rfl) nofun]
      rfl
    · cases hc

theorem runStep_exact {drivers : List BuddyTiling.Block} (h : TrapInvariant.Invariant l s)
    (hw : Waits s) (hx : Exact s log) (hs : Step l drivers s e t) :
    Exact t (recordStep s e t log) ∧ Waits t := by
  cases hs with
  | compute pc regs pc' hm =>
    exact ⟨hx.plain rfl rfl (fun p => unprinted_mode hm nofun) rfl nofun,
      hw.of_calls rfl fun _ => .inr rfl⟩
  | store pc regs pc' v byte x hm hv hwr =>
    exact ⟨hx.plain rfl rfl (fun p => unprinted_mode hm nofun) rfl nofun,
      hw.of_calls rfl fun _ => .inr rfl⟩
  | code t hs hm =>
    cases hs with
    | work => exact ⟨hx.same rfl rfl fun p => unprinted_congr rfl rfl rfl,
        hw.of_calls rfl fun _ => .inr rfl⟩
    | workMain => exact ⟨hx.same rfl rfl fun p => unprinted_congr rfl rfl rfl,
        hw.of_calls rfl fun _ => .inr rfl⟩
  | device m hm => exact ⟨hx.same rfl rfl fun p => unprinted_congr rfl rfl rfl,
      hw.of_calls rfl fun _ => .inr rfl⟩
  | create image n i t hm hn hc => exact ⟨hx.same rfl rfl fun p => unprinted_congr rfl rfl rfl,
      hw.of_calls rfl fun _ => .inr rfl⟩
  | noSlot image n hm hn hc =>
    exact ⟨hx.plain rfl rfl (fun p => unprinted_mode hm nofun) rfl nofun,
      hw.of_calls rfl fun _ => .inr rfl⟩
  | kernel e t he hs => exact ⟨step_exact h hw hx hs he, step_waits h hw hs he⟩

theorem logged_reachable (hl : Logged bus l blk log sizes s) : Reachable bus l blk sizes s := by
  induction hl with
  | boot hb => exact .boot hb
  | step _ hs ih => exact .step ih hs

theorem reachable_logged (hr : Reachable bus l blk sizes s) :
    ∃ log, Logged bus l blk log sizes s := by
  induction hr with
  | boot hb => exact ⟨_, .boot hb⟩
  | step _ hs ih =>
    obtain ⟨log, hl⟩ := ih
    exact ⟨_, .step hl hs⟩

theorem logged_exact (hl : Logged bus l blk log sizes s) : Exact s log ∧ Waits s := by
  induction hl with
  | boot hb => exact boot_exact hb
  | step hl hs ih =>
    obtain ⟨loc, frames, h⟩ := reachable_invariant (logged_reachable hl)
    exact runStep_exact h.trap ih.2 ih.1 hs

/-- In user mode no character of the process is under way. -/
theorem Exact.settled (hx : Exact s log) (h : TrapInvariant.Invariant l s) {pc : Word}
    (hm : s.mode = .user pc) : of s.current log.printed = of s.current log.asked ∧
      of s.current log.received = of s.current log.taken := by
  obtain ⟨-, -, hnone, -⟩ := (running_user hm).mp h.running
  have hprinted := hx.printed s.current
  have hreceived := hx.received s.current
  rw [unprinted_mode hm nofun, List.append_nil] at hprinted
  rw [unreturned, hnone, Option.bind_none, Option.toList_none, List.append_nil] at hreceived
  exact ⟨hprinted.symm, hreceived.symm⟩

/-- What process `p` and the console have of each other. -/
structure Faithful (s : State) (log : Log) (p : Fin procsMax) : Prop where
  printed : of p log.asked = of p log.printed ++ unprinted s p
  received : of p log.taken = of p log.received ++ unreturned s p
  settled : InUser s p → of p log.printed = of p log.asked ∧ of p log.received = of p log.taken
  subsequence : (of p log.received).Sublist log.arrived
  sole : (∀ x ∈ log.taken, x.1 = p) →
    log.arrived = of p log.received ++ unreturned s p ++ s.input

/-- In every run the console loses, repeats and swaps no character: each process has printed
what it asked for, in order, but for the call it is in, and has received what was read for it;
the characters read are those that arrived, in order, up to those still waiting. -/
theorem console_exact (hl : Logged bus l blk log sizes s) :
    log.arrived = log.taken.map Prod.snd ++ s.input ∧ ∀ p, Faithful s log p := by
  obtain ⟨hx, -⟩ := logged_exact hl
  obtain ⟨loc, frames, h⟩ := reachable_invariant (logged_reachable hl)
  refine ⟨hx.input, fun p => ⟨hx.printed p, hx.received p, fun hin => ?_, ?_, fun hsole => ?_⟩⟩
  · obtain ⟨rfl, pc, hm⟩ := hin
    exact hx.settled h.trap hm
  · rw [hx.input]
    refine ((hx.received.served_prefix p).sublist.trans (of_sublist p log.taken)).trans ?_
    exact List.sublist_append_left _ _
  · rw [← hx.received p, of_eq_map hsole, hx.input]

end

/-- The shell has called `putc('>')` and the kernel has not come to it. -/
theorem sample_console_exact : ∃ log s, unprinted s s.current = [62] ∧
    log.arrived = log.taken.map Prod.snd ++ s.input ∧ ∀ p, Faithful s log p := by
  obtain ⟨blk, s, hr, hregs, -, hm⟩ :=
    sample_user (fun r => if r = .a3 then sysPutc else if r = .a0 then 62 else 0) []
  obtain ⟨log, hl⟩ := reachable_logged hr
  obtain ⟨loc, frames, h⟩ := reachable_invariant hr
  obtain ⟨t, a, hecall, hspec, hmode, -⟩ := TrapCoherence.ecall_enters h.trap hm
  have htr : t.traps t.current = some ⟨s.regs, BitVec.ofNat 64 userBase, none⟩ := by
    rw [hspec.traps, current_withMem hspec.sched, update_self]
  refine ⟨_, t, ?_, console_exact (hl.step (.kernel _ .ecall _ trivial hecall))⟩
  rw [unprinted_current hmode htr, hregs]
  rfl

end Console
