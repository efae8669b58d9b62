import OppoOS.KernelGuarantees

/-!
# The kernel goes on

In every run the hart always has a next step, and every `ret` of `switch_context` has
somewhere to go. The kernel halts for three reasons only; the panic behind `proc_exit` is
none of them.
-/
namespace KernelProgress

open RiscV ContextSwitch Paging Processes DeviceInit SavedContexts TrapInvariant KernelRuns
open KernelMemory (IsKernel)
open Scheduler (ResumePoint)
open SystemCalls hiding Event Step Booted Reachable
open Function

def resumption (s : State) (i : Fin procsMax) : ResumePoint :=
  if i = s.current then s.sched.control else s.sched.resume i

/-- Calls of `switch_context` that would go on to a panic are those of `proc_exit`. -/
def ExitsParked (s : State) : Prop :=
  ∀ i c, s.calls i = some c → c.mode = .panicked → resumption s i = .exitReturn

/-- The state before the kernel halts: a fault of the running program, a system call that
does not exist, or a ninth process. -/
inductive Halts (sizes : List ℕ) (s : State) : Prop where
  | fault (pc) : s.mode = .user pc → Halts sizes s
  | unknown (a tr) : s.mode = .handler a false → s.traps s.current = some tr →
      tr.regs .a3 ∉ [sysPutc, sysGetc, sysExit, sysRead, sysOpen, sysClose] → Halts sizes s
  | noSlot : s.mode = .kmain → procsMax - 1 ≤ sizes.length → Halts sizes s

section
variable {l : Layout} {s t : State} {e : SystemCalls.Event}

theorem resumption_withMem {m : ByteMemory.Mem} (hs : t.sched = withMem s.sched m)
    (i : Fin procsMax) : resumption t i = resumption s i := by
  rw [resumption, resumption, current_withMem hs, hs]
  rfl

theorem ExitsParked.stay (hp : ExitsParked s) (hc : ∀ i c, t.calls i = some c → s.calls i = some c)
    (hr : ∀ i, resumption t i = resumption s i) : ExitsParked t := by
  intro i c hi hm
  rw [hr]
  exact hp i c (hc i c hi) hm

theorem yields_exit {k : Kernel} {caller : ResumePoint} {limit : ℕ} {mode : Mode}
    (hy : Yields l s k caller limit mode) : mode = .panicked → caller = .exitReturn := by
  cases hy with
  | exit a hm hf => exact fun _ => rfl
  | getc a hm hf hin => exact nofun
  | kmain hm => exact nofun

theorem yields_no_call (h : Invariant l s) {k : Kernel} {caller : ResumePoint} {limit : ℕ}
    {mode : Mode} (hy : Yields l s k caller limit mode) : s.calls s.current = none := by
  cases hy with
  | getc a hm hf hin => exact ((running_handler hm).mp h.running).1
  | exit a hm hf => exact ((running_handler hm).mp h.running).1
  | kmain hm => exact ((running_kmain hm).mp h.running).1

theorem switch_parked (hp : ExitsParked s) {k : Kernel} {caller : ResumePoint} {limit : ℕ}
    {mode : Mode} {r : Reg → Word} (hy : Yields l s k caller limit mode) :
    ExitsParked (switchTo l s k caller mode r) := by
  have hcalls : (switchTo l s k caller mode r).calls =
      update s.calls s.current (some ⟨r, s.mem, mode⟩) := rfl
  have hres : ∀ i, resumption (switchTo l s k caller mode r) i =
      update s.sched.resume s.current caller i := by
    intro i
    unfold switchTo
    dsimp only
    generalize Hart.exec _ switchContext = g
    change (if i = nextProc k then update s.sched.resume s.current caller (nextProc k)
      else update s.sched.resume s.current caller i) = _
    split
    · next hi => rw [hi]
    · rfl
  intro i c hc hm
  rw [hcalls] at hc
  rw [hres]
  by_cases hi : i = s.current
  · rw [hi, update_self, Option.some.injEq] at hc
    rw [hi, update_self]
    rw [← hc] at hm
    exact yields_exit hy hm
  · rw [update_of_ne hi] at hc ⊢
    have hi' := hp i c hc hm
    rwa [resumption, if_neg hi] at hi'

theorem keep_parked (h : Invariant l s) (hp : ExitsParked s) {k : Kernel} {caller : ResumePoint}
    {limit : ℕ} {mode : Mode} (hy : Yields l s k caller limit mode)
    (hn : nextProc k = s.current) (ht : t.calls = s.calls)
    (hs : t.sched = Scheduler.call s.sched caller (yield k)) : ExitsParked t := by
  have hnone := yields_no_call h hy
  intro i c hc hm
  rw [ht] at hc
  have hi : i ≠ s.current := by
    rintro rfl
    rw [hnone] at hc
    cases hc
  have hcur : t.current = s.current := by
    change t.sched.kernel.currentProc = s.current
    rw [hs]
    exact hn
  have hold := hp i c hc hm
  rw [resumption, if_neg hi] at hold
  rw [resumption, hcur, if_neg hi, hs]
  exact (update_of_ne hi _ _).trans hold

theorem step_parked (h : Invariant l s) (hp : ExitsParked s) (hs : SystemCalls.Step l s e t)
    (he : IsKernel e) : ExitsParked t := by
  have hsame : ∀ {u : State}, u.sched = s.sched → u.calls = s.calls → ExitsParked u := by
    intro u hu hc
    refine hp.stay (fun i c hi => by rwa [hc] at hi) fun i => ?_
    exact resumption_withMem (m := s.mem) hu i
  cases hs with
  | user pc regs pc' m hm => exact he.elim
  | ecall pc hm =>
    obtain ⟨hi, -, -, hin⟩ := (running_user hm).mp h.running
    have hspec := trapFrom_spec hi hin pc
    exact hp.stay (fun i c hc => by rwa [hspec.calls] at hc) (resumption_withMem hspec.sched)
  | fault pc hm =>
    obtain ⟨hi, -, -, hin⟩ := (running_user hm).mp h.running
    have hspec := trapFrom_spec hi hin pc
    generalize trapFrom s pc = u at hspec ⊢
    exact hp.stay (fun i c hc => by
      dsimp only at hc
      rwa [hspec.calls] at hc) (resumption_withMem hspec.sched)
  | work a done m hm => exact he.elim
  | workMain m hm => exact he.elim
  | getc a c rest hm hf hin =>
    exact hp.stay (fun i c hc => hc) (resumption_withMem rfl)
  | keep k caller limit mode hy hn => exact keep_parked h hp hy hn rfl rfl
  | switch k caller limit mode r hy hn hr => exact switch_parked hp hy
  | resume i c hm hc hr =>
    refine hp.stay (fun j c' hj => ?_) fun _ => rfl
    change update s.calls i none j = some c' at hj
    by_cases hji : j = i
    · rw [hji, update_self] at hj
      cases hj
    · rwa [update_of_ne hji] at hj
  | sysret a regs hm hsp hsaved =>
    obtain ⟨-, -, -, tr, -, hh⟩ := (running_handler hm).mp h.running
    have hspec := returnFrom_spec hh hsp
    exact hsame hspec.sched hspec.calls
  | create image imageSize i t hm ho hc hok => exact he.elim
  | _ => exact hsame rfl rfl

/-- A resumed call was not made by `proc_exit`, so it does not end in a panic. -/
theorem resumed_mode (h : Invariant l s) (hp : ExitsParked s) (hm : s.mode = .ret)
    {i : Fin procsMax} {c : Call} (hc : s.calls i = some c)
    (hr : ReturnsTo l i c s.regs s.mem) : c.mode ≠ .panicked := by
  intro hpanic
  obtain ⟨rfl, -⟩ := h.resumed hm hc hr
  have hexit := hp s.current c hc hpanic
  rw [resumption, if_pos rfl] at hexit
  exact h.sched.no_return hexit

theorem yield_step (h : Invariant l s) {k : Kernel} {caller : ResumePoint} {limit : ℕ}
    {mode : Mode} (hy : Yields l s k caller limit mode) :
    ∃ t, SystemCalls.Step l s .yield t := by
  by_cases hn : nextProc k = s.current
  · exact ⟨_, .keep s k caller limit mode hy hn⟩
  · obtain ⟨t, ht, -⟩ := TrapCoherence.yield_switches h hy hn
    exact ⟨t, ht⟩

theorem exists_step (h : Invariant l s) (hm : s.mode ≠ .panicked) :
    ∃ e t, IsKernel e ∧ e ≠ .input ∧ SystemCalls.Step l s e t := by
  cases hmode : s.mode with
  | user pc => exact ⟨.ecall, _, trivial, nofun, .ecall s pc hmode⟩
  | handler a done =>
    cases done with
    | true =>
      exact ⟨.sysret, _, trivial, nofun, .sysret s a a.entry hmode rfl fun _ _ _ => rfl⟩
    | false =>
      by_cases hget : field s.mem a.frame .a3 = sysGetc
      · cases hin : s.input with
        | nil =>
          obtain ⟨t, ht⟩ := yield_step h (.getc a hmode hget hin)
          exact ⟨.yield, t, trivial, nofun, ht⟩
        | cons c rest => exact ⟨.getc c, _, trivial, nofun, .getc s a c rest hmode hget hin⟩
      · by_cases hexit : field s.mem a.frame .a3 = sysExit
        · obtain ⟨t, ht⟩ := yield_step h (.exit a hmode hexit)
          exact ⟨.yield, t, trivial, nofun, ht⟩
        · by_cases hknown : field s.mem a.frame .a3 ∈ [sysPutc, sysRead, sysOpen, sysClose]
          · exact ⟨.syscall, _, trivial, nofun, .syscall s a hmode hknown⟩
          · refine ⟨.panic, _, trivial, nofun, .unknown s a hmode ?_⟩
            simp only [List.mem_cons, List.not_mem_nil, or_false, not_or] at hknown ⊢
            obtain ⟨hputc, hread, hopen, hclose⟩ := hknown
            exact ⟨hputc, hget, hexit, hread, hopen, hclose⟩
  | kmain =>
    obtain ⟨t, ht⟩ := yield_step h (.kmain hmode)
    exact ⟨.yield, t, trivial, nofun, ht⟩
  | ret =>
    obtain ⟨-, hland⟩ := (running_ret hmode).mp h.running
    rcases hland.cases with ⟨-, -, -, -, hra⟩ | ⟨c, hc, hr, -⟩
    · exact ⟨.dispatch, _, trivial, nofun, .dispatch s s.regs hmode hra⟩
    · exact ⟨.resume, _, trivial, nofun, .resume s s.current c hmode hc hr⟩
  | panicked => exact absurd hmode hm

end

section
variable {δ : Type} {bus : Bus δ} {l : Layout} {blk : BlkDevice} {sizes : List ℕ} {s t : State}
  {e : KernelRuns.Event}

theorem runStep_parked {drivers : List BuddyTiling.Block} (h : TrapInvariant.Invariant l s)
    (hp : ExitsParked s) (hs : Step l drivers s e t) : ExitsParked t := by
  cases hs with
  | code t hs hm =>
    cases hs with
    | work a done m hmode hw => exact hp.stay (fun _ _ hc => hc) (resumption_withMem rfl)
    | workMain m hmode hw => exact hp.stay (fun _ _ hc => hc) (resumption_withMem rfl)
  | create image n i t hm hn hc =>
    have hnone : s.calls i = none := (h.unused i (findUnused_spec (createProcess_cases hc).1).1).1
    intro j c hj hmode
    have hji : j ≠ i := by
      rintro rfl
      change s.calls j = some c at hj
      rw [hnone] at hj
      cases hj
    have hold := hp j c hj hmode
    change (if j = s.current then s.sched.control else update s.sched.resume i .start j) = _
    rwa [update_of_ne hji]
  | kernel e t he hs => exact step_parked h hp hs he
  | _ => exact hp.stay (fun _ _ hc => hc) (resumption_withMem rfl)

theorem reachable_parked (hr : Reachable bus l blk sizes s) : ExitsParked s := by
  induction hr with
  | boot hb =>
    cases hb
    intro i c hc
    cases hc
  | step hr hs ih =>
    obtain ⟨loc, frames, h⟩ := reachable_invariant hr
    exact runStep_parked h.trap ih hs

/-- The kernel halts only on a fault of the running program, on a system call that does not
exist, and for want of a slot: `proc_exit` never comes to its panic. -/
theorem panic_causes (hr : Reachable bus l blk sizes s) (hs : Step l (driverBlocks blk) s e t)
    (hm : s.mode ≠ .panicked) (ht : t.mode = .panicked) : Halts sizes s := by
  obtain ⟨loc, frames, h⟩ := reachable_invariant hr
  have hp := reachable_parked hr
  cases hs with
  | compute pc regs pc' hmode => cases ht
  | store pc regs pc' v byte x hmode hv hw => cases ht
  | code t hs hw =>
    cases hs with
    | work a done m hmode hw => exact absurd ht hm
    | workMain m hmode hw => exact absurd ht hm
  | device m hw => exact absurd ht hm
  | create image n i t hmode hn hc => exact absurd ht hm
  | noSlot image n hmode hn hc => exact .noSlot hmode ((h.create_none_iff image hn).mp hc)
  | kernel e t he hs =>
    cases hs with
    | user pc regs pc' m hmode => exact he.elim
    | ecall pc hmode =>
      obtain ⟨hi, -, -, hin⟩ := (running_user hmode).mp h.trap.running
      obtain ⟨a, hhandler, -⟩ := (trapFrom_spec hi hin pc).handling
      rw [hhandler] at ht
      cases ht
    | fault pc hmode => exact .fault pc hmode
    | work a done m hmode => exact he.elim
    | workMain m hmode => exact he.elim
    | syscall a hmode hf => cases ht
    | getc a c rest hmode hf hin => cases ht
    | unknown a hmode hf =>
      obtain ⟨-, -, -, tr, htr, hh⟩ := (running_handler hmode).mp h.trap.running
      refine .unknown a tr hmode htr ?_
      have hfield : field s.mem a.frame .a3 = tr.regs .a3 := by
        rw [field, hh.frame, hh.saved .a3]
        rfl
      rwa [← hfield]
    | keep k caller limit mode hy hn =>
      obtain ⟨hmode, -⟩ := yields_kept hy (yields_yielding hy h.trap) hn
      exact absurd (hmode.symm.trans ht) hm
    | switch k caller limit mode r hy hn hr => cases ht
    | dispatch regs hmode hra => cases ht
    | resume i c hmode hc hr => exact absurd ht (resumed_mode h.trap hp hmode hc hr)
    | sysret a regs hmode hsp hsaved =>
      obtain ⟨-, -, -, tr, -, hh⟩ := (running_handler hmode).mp h.trap.running
      rw [(returnFrom_spec hh hsp).mode] at ht
      cases ht
    | create image n i t hmode => exact he.elim
    | input c => exact absurd ht hm

/-- Until it halts the kernel has a next step that does not wait for the console. -/
theorem kernel_progress (hr : Reachable bus l blk sizes s) (hm : s.mode ≠ .panicked) :
    ∃ e t, e ≠ .input ∧ Step l (driverBlocks blk) s (.kernel e) t := by
  obtain ⟨loc, frames, h⟩ := reachable_invariant hr
  obtain ⟨e, t, he, hne, hs⟩ := exists_step h.trap hm
  exact ⟨e, t, hne, .kernel s e t he hs⟩

end

/-- The shell calls `SYS_WRITE`, which has a number but no case in `syscall_entry`. -/
theorem sample_panic : ∃ s t : State, s.mode ≠ .panicked ∧ t.mode = .panicked ∧
    Halts [0x1000] s := by
  obtain ⟨blk, s, hr, hregs, -, hm⟩ :=
    KernelGuarantees.sample_user (fun r => if r = .a3 then 3 else 0) []
  obtain ⟨loc, frames, h⟩ := reachable_invariant hr
  obtain ⟨s₁, a, hecall, -, hmode, hfield⟩ := TrapCoherence.ecall_enters h.trap hm
  have hunknown : field s₁.mem a.frame .a3 ∉
      [sysPutc, sysGetc, sysExit, sysRead, sysOpen, sysClose] := by
    rw [hfield, hregs]
    decide
  have hne : s₁.mode ≠ .panicked := by
    rw [hmode]
    exact Mode.noConfusion
  have hr₁ : Reachable _ _ _ [0x1000] s₁ := hr.step (.kernel _ .ecall _ trivial hecall)
  have hpanic := SystemCalls.Step.unknown (l := sampleLayout) s₁ a hmode hunknown
  exact ⟨s₁, { s₁ with mode := .panicked }, hne, rfl,
    panic_causes hr₁ (.kernel _ .panic _ trivial hpanic) hne rfl⟩

/-- From the `ret` of `switch_context` behind the exit of the shell. -/
theorem sample_progress : ∃ s t : State, ∃ blk e, s.mode = .ret ∧
    (s.kernel.procs 1).state = .exited ∧ e ≠ .input ∧
    Step sampleLayout (driverBlocks blk) s (.kernel e) t := by
  obtain ⟨blk, s, c, hr, hret, -, -, -, hx⟩ := KernelGuarantees.sample_shell_exits
  obtain ⟨e, t, hne, hs⟩ := kernel_progress hr (by rw [hret]; exact Mode.noConfusion)
  exact ⟨s, t, blk, e, hret, hx, hne, hs⟩

end KernelProgress
