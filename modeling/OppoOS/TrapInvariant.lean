import OppoOS.SavedContexts

/-!
# The invariant of traps and switches

Every registered process but the current one has a saved context in its own memory, and the
current one is where its trap, or its call of `switch_context`, says.
-/
namespace TrapInvariant

open ByteMemory RiscV ContextSwitch Paging PageGrants Processes ProcessSpace SystemCalls
open SavedContexts Function
open Scheduler (ResumePoint)
open BuddyAllocator (pageSize)

def Running (l : Layout) (s : State) : Prop :=
  match s.mode with
  | .user _ => s.current ≠ 0 ∧ s.calls s.current = none ∧ s.traps s.current = none ∧
      Installed l s
  | .ret => Installed l s ∧
      Landed l s.mem s.current s.regs (s.calls s.current) (s.traps s.current) s.sched.control
  | .handler a done => s.calls s.current = none ∧ Installed l s ∧
      CodeOk l s.mem s.current (s.traps s.current) (.handler a done)
  | .kmain => s.calls s.current = none ∧ s.current = 0 ∧ s.traps s.current = none
  | .panicked => True

structure Invariant (l : Layout) (s : State) : Prop where
  sched : Scheduler.Invariant s.sched
  parked : ∀ i, i ≠ s.current → (s.kernel.procs i).state ≠ .unused →
    Parked l s.mem i (s.calls i) (s.traps i) (s.sched.resume i)
  unused : ∀ i, (s.kernel.procs i).state = .unused → s.calls i = none ∧ s.traps i = none
  roots : ∀ i, (s.kernel.procs i).state ≠ .unused →
    pageSize ∣ (s.kernel.procs i).pageTable ∧ (s.kernel.procs i).pageTable < 2 ^ 32
  running : Running l s

section
variable {l : Layout} {s t : State} {pc : Word} {a : Activation} {done : Bool}

theorem running_user (hm : s.mode = .user pc) : Running l s ↔ s.current ≠ 0 ∧
    s.calls s.current = none ∧ s.traps s.current = none ∧ Installed l s := by
  rw [Running, hm]

theorem running_handler (hm : s.mode = .handler a done) : Running l s ↔
    s.calls s.current = none ∧ Installed l s ∧
      CodeOk l s.mem s.current (s.traps s.current) (.handler a done) := by
  rw [Running, hm]

theorem running_kmain (hm : s.mode = .kmain) : Running l s ↔
    s.calls s.current = none ∧ s.current = 0 ∧ s.traps s.current = none := by
  rw [Running, hm]

theorem running_ret (hm : s.mode = .ret) : Running l s ↔ Installed l s ∧
    Landed l s.mem s.current s.regs (s.calls s.current) (s.traps s.current) s.sched.control := by
  rw [Running, hm]

theorem running_of_code (hcalls : s.calls s.current = none) (hin : Installed l s)
    (hcode : CodeOk l s.mem s.current (s.traps s.current) s.mode) : Running l s := by
  cases hm : s.mode with
  | handler a done =>
    rw [hm] at hcode
    exact (running_handler hm).mpr ⟨hcalls, hin, hcode⟩
  | kmain =>
    rw [hm] at hcode
    exact (running_kmain hm).mpr ⟨hcalls, hcode⟩
  | panicked =>
    rw [Running, hm]
    trivial
  | user pc =>
    rw [hm] at hcode
    exact hcode.elim
  | ret =>
    rw [hm] at hcode
    exact hcode.elim

theorem Running.congr (h : Running l s) (hcur : t.current = s.current) (hmem : t.mem = s.mem)
    (hcsrs : t.csrs = s.csrs)
    (htable : (t.kernel.procs s.current).pageTable = (s.kernel.procs s.current).pageTable)
    (hmode : t.mode = s.mode)
    (hret : s.mode = .ret → t.regs = s.regs ∧ t.sched.control = s.sched.control)
    (hcalls : t.calls = s.calls) (htraps : t.traps = s.traps) : Running l t := by
  have hin : Installed l s → Installed l t := by
    rintro ⟨hsscratch, hsatp⟩
    constructor
    · rw [hcsrs, hcur, hsscratch]
    · rw [hcsrs, hcur, hsatp, htable]
  unfold Running at h ⊢
  rw [hmode, hcur, hmem, hcalls, htraps]
  cases hm : s.mode with
  | user pc =>
    rw [hm] at h
    exact ⟨h.1, h.2.1, h.2.2.1, hin h.2.2.2⟩
  | handler a done =>
    rw [hm] at h
    exact ⟨h.1, hin h.2.1, h.2.2⟩
  | kmain =>
    rw [hm] at h
    exact h
  | ret =>
    rw [hm] at h
    dsimp only at h ⊢
    rw [(hret hm).1, (hret hm).2]
    exact ⟨hin h.1, h.2⟩
  | panicked => trivial

theorem withMem_invariant {σ : Scheduler.State} (h : Scheduler.Invariant σ) (m : Mem) :
    Scheduler.Invariant (withMem σ m) :=
  ⟨h.idle_slot, h.idle_pid, h.idle_runnable, h.pid_slot, h.current_runnable, h.exit_exited,
    h.no_return⟩

/-- A step that writes only what belongs to the current process. -/
theorem Invariant.of_local (h : Invariant l s) {m : Mem} (hs : t.sched = withMem s.sched m)
    (hm : ∀ x, InStacks l x → ¬ Own l s.current x → m x = s.mem x)
    (hcalls : ∀ i, i ≠ s.current → t.calls i = s.calls i)
    (htraps : ∀ i, i ≠ s.current → t.traps i = s.traps i) (hrun : Running l t) :
    Invariant l t := by
  obtain ⟨σ, regs, csrs, mode, calls, traps, input⟩ := t
  dsimp only at hs hcalls htraps
  subst hs
  constructor
  · exact withMem_invariant h.sched m
  · intro i hi hu
    change Parked l m i (calls i) (traps i) (s.sched.resume i)
    rw [hcalls i hi, htraps i hi]
    exact (h.parked i hi hu).kept fun x hx => own_kept l hi hm hx
  · intro i hu
    have hi : i ≠ s.current := by
      rintro rfl
      have hr := h.sched.current_runnable
      change (s.kernel.procs s.current).state = .unused at hu
      rw [hr] at hu
      cases hu
    change calls i = none ∧ traps i = none
    rw [hcalls i hi, htraps i hi]
    exact h.unused i hu
  · exact h.roots
  · exact hrun

theorem Invariant.of_same (h : Invariant l s) (hs : t.sched = s.sched)
    (hcalls : ∀ i, i ≠ s.current → t.calls i = s.calls i)
    (htraps : ∀ i, i ≠ s.current → t.traps i = s.traps i) (hrun : Running l t) :
    Invariant l t :=
  h.of_local (m := s.mem) hs (fun _ _ _ => rfl) hcalls htraps hrun

end

section
variable {l : Layout} {s t : State} {e : Event} {k : Kernel} {caller : ResumePoint} {limit : ℕ}
  {mode : Mode}

structure Yielding (l : Layout) (s : State) (k : Kernel) (caller : ResumePoint) (limit : ℕ)
    (mode : Mode) : Prop where
  sched : Scheduler.Invariant (Scheduler.call s.sched caller (yield k))
  pages : k.pages = s.kernel.pages
  unused : ∀ i, (k.procs i).state = .unused ↔ (s.kernel.procs i).state = .unused
  pageTable : ∀ i, (k.procs i).pageTable = (s.kernel.procs i).pageTable
  caller : caller ≠ .start
  limit : limit ≤ codeTop l s.current
  code : CodeOk l s.mem s.current (s.traps s.current) mode

theorem yields_yielding (hy : Yields l s k caller limit mode) (h : Invariant l s) :
    Yielding l s k caller limit mode := by
  cases hy with
  | getc a hm hf hin =>
    obtain ⟨-, -, hcode⟩ := (running_handler hm).mp h.running
    obtain ⟨hi, t, -, hh⟩ := id hcode
    have hs : Scheduler.Step kallocPage l s.sched .yield _ := .yield _
    refine ⟨Scheduler.step_preserves_invariant h.sched hs, rfl, fun _ => Iff.rfl,
      fun _ => rfl, by decide, ?_, hcode⟩
    rw [(codeTop_user l hi).1, hh.entry]
  | exit a hm hf =>
    obtain ⟨-, -, hi, t, -, hh⟩ := (running_handler hm).mp h.running
    have hne : s.kernel.currentProc ≠ s.kernel.idleProc := by
      rw [h.sched.idle_slot]
      exact hi
    have hs : Scheduler.Step kallocPage l s.sched .exit _ := .exit _ hne
    refine ⟨Scheduler.step_preserves_invariant h.sched hs, rfl, ?_, ?_, by decide, ?_, trivial⟩
    · intro i
      by_cases hc : i = s.kernel.currentProc
      · rw [hc, Scheduler.markExited_self, h.sched.current_runnable]
        simp
      · rw [Scheduler.markExited_other _ hc]
    · intro i
      by_cases hc : i = s.kernel.currentProc
      · rw [hc, Scheduler.markExited_self]
      · rw [Scheduler.markExited_other _ hc]
    · rw [(codeTop_user l hi).1, hh.entry]
  | kmain hm =>
    obtain ⟨-, hi, ht⟩ := (running_kmain hm).mp h.running
    have hs : Scheduler.Step kallocPage l s.sched .yield _ := .yield _
    refine ⟨Scheduler.step_preserves_invariant h.sched hs, rfl, fun _ => Iff.rfl,
      fun _ => rfl, by decide, ?_, hi, ht⟩
    exact (if_pos hi).ge

theorem yields_kept (hy : Yields l s k caller limit mode)
    (y : Yielding l s k caller limit mode) (hn : nextProc k = s.current) :
    mode = s.mode ∧ s.mode ≠ .ret := by
  cases hy with
  | getc a hm hf hin => exact ⟨hm.symm, by rw [hm]; exact Mode.noConfusion⟩
  | exit a hm hf =>
    have hr := y.sched.current_runnable
    change ((markExited s.kernel).procs (nextProc (markExited s.kernel))).state = _ at hr
    rw [hn, Scheduler.markExited_self] at hr
    cases hr
  | kmain hm => exact ⟨hm.symm, by rw [hm]; exact Mode.noConfusion⟩

theorem keep_step (h : Invariant l s) (hy : Yields l s k caller limit mode)
    (hn : nextProc k = s.current) :
    Invariant l { s with sched := Scheduler.call s.sched caller (yield k), mode := mode } := by
  have y := yields_yielding hy h
  have hcur : (yield k).currentProc = s.current := hn
  have hmem : (yield k).pages.mem = s.mem := congrArg (fun σ => σ.mem) y.pages
  constructor
  · exact y.sched
  · intro i hi hu
    change i ≠ (yield k).currentProc at hi
    rw [hcur] at hi
    have hp := h.parked i hi (mt (y.unused i).mpr hu)
    change Parked l (yield k).pages.mem i (s.calls i) (s.traps i)
      (update s.sched.resume s.current caller i)
    rwa [hmem, update_of_ne hi]
  · exact fun i hu => h.unused i ((y.unused i).mp hu)
  · intro i hu
    change pageSize ∣ (k.procs i).pageTable ∧ (k.procs i).pageTable < 2 ^ 32
    rw [y.pageTable]
    exact h.roots i (mt (y.unused i).mpr hu)
  · have hmode : mode = s.mode ∧ s.mode ≠ .ret := yields_kept hy y hn
    refine h.running.congr hcur hmem ?_ (y.pageTable s.current) hmode.1
      (fun hr => absurd hr hmode.2) ?_ ?_
    all_goals rfl

theorem Invariant.current_used (h : Invariant l s) {i : Fin procsMax}
    (hu : (s.kernel.procs i).state = .unused) : i ≠ s.current := by
  rintro rfl
  have hr := h.sched.current_runnable
  change (s.kernel.procs s.current).state = .runnable at hr
  rw [hr] at hu
  cases hu

theorem switch_step {r : Reg → Word} (h : Invariant l s) (hy : Yields l s k caller limit mode)
    (hn : nextProc k ≠ s.current) (hr : CallRegs l s.current (nextProc k) limit r) :
    Invariant l (switchTo l s k caller mode r) := by
  have y := yields_yielding hy h
  have hnext : (s.kernel.procs (nextProc k)).state ≠ .unused := by
    have hrun : (k.procs (nextProc k)).state = .runnable := y.sched.current_runnable
    apply mt (y.unused (nextProc k)).mpr
    rw [hrun]
    decide
  unfold switchTo
  dsimp only
  generalize hcsrs : update (update s.csrs .sscratch (stackTopWord l (nextProc k))) .satp
    (satpOf (k.procs (nextProc k)).pageTable) = csrs
  have sw := exec_switchContext hr y.limit hn csrs y.code (h.parked _ hn hnext)
  generalize Hart.exec ⟨r, csrs, s.mem⟩ switchContext = g at sw ⊢
  constructor
  · exact withMem_invariant y.sched g.mem
  · intro i hi hu
    change i ≠ nextProc k at hi
    change Parked l g.mem i (update s.calls s.current (some ⟨r, s.mem, mode⟩) i) (s.traps i)
      (update s.sched.resume s.current caller i)
    by_cases hc : i = s.current
    · subst hc
      rw [update_self, update_self]
      exact parked_of_suspended sw.suspended y.caller
    · rw [update_of_ne hc, update_of_ne hc]
      exact (h.parked i hc (mt (y.unused i).mpr hu)).kept fun x hx => own_kept l hc sw.kept hx
  · intro i hu
    have hu' := (y.unused i).mp hu
    change update s.calls s.current (some ⟨r, s.mem, mode⟩) i = none ∧ s.traps i = none
    rw [update_of_ne (h.current_used hu')]
    exact h.unused i hu'
  · intro i hu
    change pageSize ∣ (k.procs i).pageTable ∧ (k.procs i).pageTable < 2 ^ 32
    rw [y.pageTable]
    exact h.roots i (mt (y.unused i).mpr hu)
  · have hg : g.csrs = csrs := sw.csrs
    refine ⟨⟨?_, ?_⟩, ?_⟩
    · change g.csrs .sscratch = stackTopWord l (nextProc k)
      rw [hg, ← hcsrs, update_of_ne (by decide), update_self]
    · change g.csrs .satp = satpOf (k.procs (nextProc k)).pageTable
      rw [hg, ← hcsrs, update_self]
    · change Landed l g.mem (nextProc k) g.regs
        (update s.calls s.current (some ⟨r, s.mem, mode⟩) (nextProc k)) (s.traps (nextProc k))
        (update s.sched.resume s.current caller (nextProc k))
      rw [update_of_ne hn, update_of_ne hn]
      exact sw.landed

/-- The call that returns is the one that the process was left in. -/
theorem Invariant.resumed (h : Invariant l s) (hm : s.mode = .ret) {i : Fin procsMax} {c : Call}
    (hc : s.calls i = some c) (hr : ReturnsTo l i c s.regs s.mem) :
    i = s.current ∧ Suspended l s.mem i c (s.traps i) := by
  obtain ⟨-, hland⟩ := (running_ret hm).mp h.running
  have hother : i ≠ s.current → Suspended l s.mem i c (s.traps i) := by
    intro hi
    have hu : (s.kernel.procs i).state ≠ .unused := by
      intro hu
      rw [(h.unused i hu).1] at hc
      cases hc
    have hp := h.parked i hi hu
    rw [hc] at hp
    exact hp.suspended
  rcases hland.cases with ⟨-, -, hnone, -, hra⟩ | ⟨c', hc', hr', hs'⟩
  · have hi : i ≠ s.current := by
      rintro rfl
      rw [hnone] at hc
      cases hc
    -- a process at its start returns to `user_entry`, no call does
    refine absurd ?_ (hother hi).ra
    rw [← hr.saved .ra (by decide)]
    exact hra
  · have hi : i = s.current := by
      by_contra hi
      exact hi ((hother hi).slot_unique hs' (hr.sp.symm.trans hr'.sp))
    subst hi
    rw [hc] at hc'
    cases hc'
    exact ⟨rfl, hs'⟩

theorem create_step (h : Invariant l s) (hm : s.mode = .kmain) {base : List BuddyTiling.Block}
    (ho : Owned (heapOf l) base s.kernel.pages) {image imageSize : ℕ} {i : Fin procsMax}
    {t : ProcTable}
    (hc : createProcess kallocPage l s.kernel.toProcTable image imageSize = some (i, t))
    (hok : 0 ∉ t.pages.granted) :
    Invariant l
      { s with
        sched :=
          { kernel := { s.kernel with toProcTable := t }
            resume := update s.sched.resume i .start
            control := s.sched.control } } := by
  obtain ⟨hfree, -, hp⟩ := createProcess_cases hc
  have hun : (s.kernel.procs i).state = .unused := (findUnused_spec hfree).1
  have hzero : i ≠ 0 := by
    rintro rfl
    rw [h.sched.idle_runnable] at hun
    cases hun
  have hold : ∀ j, j ≠ i → t.procs j = s.kernel.procs j := by
    intro j hj
    rw [hp, update_of_ne hj]
  have hstacks : ∀ x, InStacks l x → t.pages.mem x = (framed l s.kernel.toProcTable i).mem x :=
    fun x hx => createProcess_stacks ho hc hok hx
  constructor
  · exact Scheduler.create_invariant h.sched hc
  · intro j hj hu
    change Parked l t.pages.mem j (s.calls j) (s.traps j) (update s.sched.resume i .start j)
    by_cases hji : j = i
    · subst hji
      obtain ⟨hcall, htrap⟩ := h.unused j hun
      rw [update_self]
      refine ⟨hzero, hcall, htrap, ?_⟩
      exact (framed_fresh l s.kernel.toProcTable j).kept hzero fun x hx =>
        hstacks x (own_inStacks l hx)
    · change (t.procs j).state ≠ .unused at hu
      rw [hold j hji] at hu
      rw [update_of_ne hji]
      refine (h.parked j hj hu).kept fun x hx => ?_
      rw [hstacks x (own_inStacks l hx)]
      exact framed_outside l s.kernel.toProcTable (own_slot l hji hx)
  · intro j hu
    change (t.procs j).state = .unused at hu
    have hji : j ≠ i := by
      rintro rfl
      rw [hp, update_self] at hu
      cases hu
    rw [hold j hji] at hu
    exact h.unused j hu
  · intro j hu
    change (t.procs j).state ≠ .unused at hu
    by_cases hji : j = i
    · subst hji
      exact createProcess_root ho hc hok
    · change pageSize ∣ (t.procs j).pageTable ∧ (t.procs j).pageTable < 2 ^ 32
      rw [hold j hji] at hu ⊢
      exact h.roots j hu
  · have hrun := (running_kmain hm).mp h.running
    refine (running_kmain ?_).mpr hrun
    exact hm

theorem boot_invariant (hb : Booted l s) : Invariant l s := by
  cases hb with
  | mk t k regs csrs input hun ho hk hok =>
    obtain ⟨base, ho⟩ := ho
    have hinv := Scheduler.initProc_invariant hun hk
    have hcur : k.currentProc = 0 := (Scheduler.initProc_current hk).trans hinv.idle_slot
    constructor
    · exact hinv
    · intro i hi hu
      change i ≠ k.currentProc at hi
      rw [hcur] at hi
      exact absurd ((Scheduler.initProc_registered hun hk i).mp hu) hi
    · exact fun _ _ => ⟨rfl, rfl⟩
    · intro i hu
      obtain rfl := (Scheduler.initProc_registered hun hk i).mp hu
      unfold initProc at hk
      obtain ⟨⟨j, t'⟩, hc, hk⟩ := Option.bind_eq_some_iff.mp hk
      rw [Option.some.injEq] at hk
      subst hk
      dsimp only at hcur hok
      subst hcur
      have hroot := createProcess_root ho hc hok
      change pageSize ∣ (update t'.procs 0 { t'.procs 0 with pid := 0 } 0).pageTable ∧
        (update t'.procs 0 { t'.procs 0 with pid := 0 } 0).pageTable < 2 ^ 32
      rw [update_self]
      exact hroot
    · exact ⟨rfl, hcur, rfl⟩

theorem current_withMem {m : Mem} (hs : t.sched = withMem s.sched m) :
    t.current = s.current := congrArg (fun σ => σ.kernel.currentProc) hs

theorem procs_withMem {m : Mem} (hs : t.sched = withMem s.sched m) :
    t.kernel.procs = s.kernel.procs := congrArg (fun σ => σ.kernel.procs) hs

theorem ecall_step (h : Invariant l s) {pc : Word} (hm : s.mode = .user pc)
    (ht : Trapped l s pc t) : Invariant l t := by
  obtain ⟨hi, hcalls, -, hin⟩ := (running_user hm).mp h.running
  obtain ⟨a, hmode, hh⟩ := ht.handling
  have hcur := current_withMem ht.sched
  apply h.of_local ht.sched ht.kept
  · intro i _
    rw [ht.calls]
  · intro i hc
    rw [ht.traps, update_of_ne hc]
  · apply running_of_code
    · rw [ht.calls, hcur, hcalls]
    · apply hin.congr hcur
      · rw [procs_withMem ht.sched]
      · rw [ht.csrs, update_of_ne (by decide)]
      · rw [ht.csrs, update_of_ne (by decide)]
    · rw [hmode, hcur, ht.traps, update_self]
      exact ⟨hi, _, rfl, hh⟩

theorem work_step (h : Invariant l s) {a : Activation} {done : Bool} {m : Mem}
    (hm : s.mode = .handler a done)
    (hw : CodeWrites l s.current (a.entry .sp).toNat s.mem m) :
    Invariant l { s with sched := withMem s.sched m } := by
  obtain ⟨hcalls, hin, hcode⟩ := (running_handler hm).mp h.running
  obtain ⟨hi, t, ht, hh⟩ := id hcode
  have hentry : (a.entry .sp).toNat = codeTop l s.current := by
    rw [hh.entry, (codeTop_user l hi).1]
  have hb := codeTop_bounds l s.current
  rw [hentry] at hw
  apply h.of_local (m := m)
  · rfl
  · exact codeWrites_kept l hw hb.2.1
  · exact fun _ _ => rfl
  · exact fun _ _ => rfl
  · apply running_of_code
    · exact hcalls
    · exact hin.congr rfl rfl rfl rfl
    · rw [← hm] at hcode
      apply hcode.congr
      intro x hl hr
      exact hw x (own_inStacks l (own_stack (by omega) hr)) (by omega)

theorem getc_step (h : Invariant l s) {a : Activation} (hm : s.mode = .handler a false)
    (hf : field s.mem a.frame .a3 = sysGetc) (c : UInt8) (rest : List UInt8) :
    Invariant l
      { s with
        sched := withMem s.sched (storeWord s.mem (a.frame.toNat + 8 * slot .a0) (charWord c))
        mode := .handler a true
        traps := update s.traps s.current
          ((s.traps s.current).map fun t => { t with got := some c })
        input := rest } := by
  obtain ⟨hcalls, hin, hi, t, ht, hh⟩ := (running_handler hm).mp h.running
  have b := layout_bounds l s.current
  have sb := stack_bounds l s.current
  have hz : (s.current : ℕ) ≠ 0 := fun h => hi (Fin.ext h)
  have ha0 : slot .a0 = 10 := rfl
  have hcall : t.regs .a3 = sysGetc := by
    rw [← hf, field, hh.frame, hh.saved .a3]
    rfl
  have hsaved := hh.saved.answer c
  rw [ht, hh.frame]
  apply h.of_local (m := storeWord s.mem (l.stackTop s.current - 248 + 8 * slot .a0) (charWord c))
  · rfl
  · intro x _ hx
    apply storeWord_outside
    rw [ha0]
    by_contra hc
    exact hx (own_stack (by omega) (by omega))
  · exact fun _ _ => rfl
  · exact fun i hc => update_of_ne hc _ _
  · apply running_of_code
    · exact hcalls
    · exact hin.congr rfl rfl rfl rfl
    · refine ⟨hi, { t with got := some c }, update_self _ _ _, hh.frame, hh.entry, hh.pc, ?_, ?_,
        hsaved⟩
      · intro hd
        cases hd
      · exact fun _ => ⟨fun _ => hcall, fun _ => Option.some_ne_none c⟩

theorem sysret_step (h : Invariant l s) {a : Activation} (hm : s.mode = .handler a true)
    {tr : Trap} (ht : Returned s tr t) : Invariant l t := by
  obtain ⟨hcalls, hin, hi, -⟩ := (running_handler hm).mp h.running
  have hcur : t.current = s.current := congrArg (fun σ => σ.kernel.currentProc) ht.sched
  apply h.of_same ht.sched
  · intro i _
    rw [ht.calls]
  · intro i hc
    rw [ht.traps, update_of_ne hc]
  · apply (running_user ht.mode).mpr
    rw [hcur, ht.calls, ht.traps, update_self]
    refine ⟨hi, hcalls, rfl, ?_⟩
    apply hin.congr hcur
    · rw [congrArg (fun σ => σ.kernel.procs) ht.sched]
    · rw [ht.csrs, update_of_ne (by decide)]
    · rw [ht.csrs, update_of_ne (by decide)]

theorem syscall_step (h : Invariant l s) {a : Activation} (hm : s.mode = .handler a false)
    (hf : field s.mem a.frame .a3 ∈ [sysPutc, sysRead, sysOpen, sysClose]) :
    Invariant l { s with mode := .handler a true } := by
  obtain ⟨hcalls, hin, hi, tr, htr, hh⟩ := (running_handler hm).mp h.running
  have hfield : field s.mem a.frame .a3 = tr.regs .a3 := by
    rw [field, hh.frame, hh.saved .a3]
    rfl
  have hcall : tr.regs .a3 ≠ sysGetc := by
    rw [hfield] at hf
    intro hc
    rw [hc] at hf
    revert hf
    decide
  apply h.of_same
  · rfl
  · exact fun _ _ => rfl
  · exact fun _ _ => rfl
  · refine ⟨hcalls, hin.congr rfl rfl rfl rfl, hi, tr, htr, hh.frame, hh.entry, hh.pc, ?_, ?_,
      hh.saved⟩
    · intro hd
      cases hd
    · exact fun _ => iff_of_false (fun hn => hn (hh.fresh rfl)) hcall

theorem dispatch_step (h : Invariant l s) (hm : s.mode = .ret)
    (hra : (s.regs .ra).toNat = l.userEntry) (regs : Reg → Word) :
    Invariant l
      { s with
        regs := regs
        csrs := update (update s.csrs .sepc (BitVec.ofNat 64 userBase)) .sstatus sstatusSpie
        mode := .user (BitVec.ofNat 64 userBase) } := by
  obtain ⟨hin, hland⟩ := (running_ret hm).mp h.running
  apply h.of_same
  · rfl
  · exact fun _ _ => rfl
  · exact fun _ _ => rfl
  · rcases hland.cases with ⟨-, hi, hcalls, htraps, -⟩ | ⟨c, -, hr, hs⟩
    · exact ⟨hi, hcalls, htraps, hin.congr rfl rfl rfl rfl⟩
    · -- no call of `switch_context` returns to `user_entry`
      refine absurd hra ?_
      rw [hr.saved .ra (by decide)]
      exact hs.ra

theorem resume_step (h : Invariant l s) (hm : s.mode = .ret) {i : Fin procsMax} {c : Call}
    (hc : s.calls i = some c) (hr : ReturnsTo l i c s.regs s.mem) :
    Invariant l { s with mode := c.mode, calls := update s.calls i none } := by
  obtain ⟨hin, -⟩ := (running_ret hm).mp h.running
  obtain ⟨rfl, hs⟩ := h.resumed hm hc hr
  apply h.of_same
  · rfl
  · exact fun i hc => update_of_ne hc _ _
  · exact fun _ _ => rfl
  · apply running_of_code
    · exact update_self _ _ _
    · exact hin.congr rfl rfl rfl rfl
    · exact hs.code

theorem step_invariant (h : Invariant l s) (hs : Step l s e t) : Invariant l t := by
  cases hs with
  | user pc regs pc' m hm hkept =>
    obtain ⟨hi, hcalls, htraps, hin⟩ := (running_user hm).mp h.running
    apply h.of_local (m := m) rfl
    · exact fun x hx _ => hkept x hx
    · exact fun _ _ => rfl
    · exact fun _ _ => rfl
    · exact ⟨hi, hcalls, htraps, hin.congr rfl rfl rfl rfl⟩
  | ecall pc hm =>
    obtain ⟨hi, -, -, hin⟩ := (running_user hm).mp h.running
    exact ecall_step h hm (trapFrom_spec hi hin pc)
  | fault pc hm =>
    obtain ⟨hi, -, -, hin⟩ := (running_user hm).mp h.running
    have ht := trapFrom_spec hi hin pc
    apply h.of_local
    · exact ht.sched
    · exact ht.kept
    · intro i _
      dsimp only
      rw [ht.calls]
    · exact fun _ _ => rfl
    · trivial
  | work a done m hm hw => exact work_step h hm hw
  | workMain m hm hw =>
    have hrun := (running_kmain hm).mp h.running
    have hb := codeTop_bounds l s.current
    have htop : codeTop l s.current = l.bootStackTop := if_pos hrun.2.1
    apply h.of_local (m := m) rfl
    · exact codeWrites_kept l hw (by omega)
    · exact fun _ _ => rfl
    · exact fun _ _ => rfl
    · refine (running_kmain ?_).mpr hrun
      exact hm
  | syscall a hm hf => exact syscall_step h hm hf
  | getc a c rest hm hf hin => exact getc_step h hm hf _ rest
  | unknown a hm hf =>
    apply h.of_same
    · rfl
    · exact fun _ _ => rfl
    · exact fun _ _ => rfl
    · trivial
  | keep k caller limit mode hy hn => exact keep_step h hy hn
  | switch k caller limit mode r hy hn hr => exact switch_step h hy hn hr
  | dispatch regs hm hra => exact dispatch_step h hm hra regs
  | resume i c hm hc hr => exact resume_step h hm hc hr
  | sysret a regs hm hsp hsaved =>
    obtain ⟨-, -, -, tr, -, hh⟩ := (running_handler hm).mp h.running
    exact sysret_step h hm (returnFrom_spec hh hsp)
  | create image imageSize i t hm ho hc hok =>
    obtain ⟨base, ho⟩ := ho
    exact create_step h hm ho hc hok
  | input c =>
    apply h.of_same
    · rfl
    · exact fun _ _ => rfl
    · exact fun _ _ => rfl
    · exact h.running.congr rfl rfl rfl rfl rfl (fun _ => ⟨rfl, rfl⟩) rfl rfl

theorem reachable_invariant (hs : Reachable l s) : Invariant l s := by
  induction hs with
  | boot hb => exact boot_invariant hb
  | step _ hs ih => exact step_invariant ih hs

end

end TrapInvariant
