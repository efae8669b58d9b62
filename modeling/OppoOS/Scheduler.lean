import OppoOS.Processes

/-!
# Scheduler runs

After `init_proc` the current process calls `create_process`, `yield` and `proc_exit` in any
order. A process that is switched away from continues, when it is next chosen, after the
call that suspended it; a new one continues at its start.
-/
namespace Scheduler

open BuddyAllocator Paging Processes Function

inductive ResumePoint where
  | start
  | yieldReturn
  | exitReturn
  deriving DecidableEq, Repr

/-- `control` is where the current process is now, `resume` where the others will be. -/
structure State where
  kernel : Kernel
  resume : Fin procsMax → ResumePoint
  control : ResumePoint

inductive Event where
  | create (image imageSize : ℕ)
  | yield
  | exit
  deriving DecidableEq, Repr

/-- The current process calls; control goes on in the process that is then current, which
is the caller itself when the scheduler keeps it. -/
def call (s : State) (caller : ResumePoint) (k : Kernel) : State :=
  let resume := update s.resume s.kernel.currentProc caller
  { kernel := k, resume := resume, control := resume k.currentProc }

/-- Only `syscall_entry` calls `proc_exit`, so the idle process does not. -/
inductive Step (kalloc : Pages → ℕ × Pages) (l : Layout) : State → Event → State → Prop where
  | create (s image imageSize i t) :
      createProcess kalloc l s.kernel.toProcTable image imageSize = some (i, t) →
      Step kalloc l s (.create image imageSize)
        { kernel := { s.kernel with toProcTable := t }
          resume := update s.resume i .start
          control := s.control }
  | yield (s) : Step kalloc l s .yield (call s .yieldReturn (yield s.kernel))
  | exit (s) : s.kernel.currentProc ≠ s.kernel.idleProc →
      Step kalloc l s .exit (call s .exitReturn (procExit s.kernel))

inductive Execution (kalloc : Pages → ℕ × Pages) (l : Layout) : State → State → Prop where
  | nil (s) : Execution kalloc l s s
  | tail {s t u e} : Execution kalloc l s t → Step kalloc l t e u → Execution kalloc l s u

def start (k : Kernel) : State := ⟨k, fun _ => .start, .start⟩

structure Invariant (s : State) : Prop where
  idle_slot : s.kernel.idleProc = 0
  idle_pid : (s.kernel.procs 0).pid = 0
  idle_runnable : (s.kernel.procs 0).state = .runnable
  pid_slot : ∀ i, i ≠ 0 → (s.kernel.procs i).state ≠ .unused → (s.kernel.procs i).pid = i + 1
  current_runnable : (s.kernel.procs s.kernel.currentProc).state = .runnable
  exit_exited : ∀ i, i ≠ s.kernel.currentProc → s.resume i = .exitReturn →
    (s.kernel.procs i).state = .exited
  no_return : s.control ≠ .exitReturn

theorem slotAfter_surjective (k : Kernel) (p : Fin procsMax) :
    ∃ i, i < procsMax ∧ slotAfter k i = p := by
  generalize hn : (k.procs k.currentProc).pid = n
  refine ⟨(p + (procsMax - n % procsMax)) % procsMax, Nat.mod_lt _ (by decide), ?_⟩
  apply Fin.ext
  have hp := p.isLt
  simp only [slotAfter, hn, Fin.ofNat, procsMax] at hp ⊢
  omega

/-- Either a runnable process other than the idle task, or the idle task when there is
none. -/
theorem nextProc_cases (k : Kernel) :
    ((k.procs (nextProc k)).state = .runnable ∧ 0 < (k.procs (nextProc k)).pid) ∨
      (nextProc k = k.idleProc ∧
        ∀ p, ¬ ((k.procs p).state = .runnable ∧ 0 < (k.procs p).pid)) := by
  unfold nextProc
  cases hf : ((List.range procsMax).map (slotAfter k)).find? fun p =>
      (k.procs p).state = .runnable ∧ 0 < (k.procs p).pid with
  | some p => exact Or.inl (by simpa using List.find?_some hf)
  | none =>
    refine Or.inr ⟨rfl, fun p => ?_⟩
    obtain ⟨i, hi, hp⟩ := slotAfter_surjective k p
    have hmem : p ∈ (List.range procsMax).map (slotAfter k) :=
      List.mem_map.mpr ⟨i, List.mem_range.mpr hi, hp⟩
    simpa using List.find?_eq_none.mp hf p hmem

theorem nextProc_only {k : Kernel} {p : Fin procsMax}
    (hp : (k.procs p).state = .runnable ∧ 0 < (k.procs p).pid)
    (hothers : ∀ i, i ≠ p → ¬ ((k.procs i).state = .runnable ∧ 0 < (k.procs i).pid)) :
    nextProc k = p := by
  rcases nextProc_cases k with hrun | ⟨-, hnone⟩
  · by_contra hne
    exact hothers _ hne hrun
  · exact absurd hp (hnone p)

theorem nextProc_runnable {k : Kernel} (h : (k.procs k.idleProc).state = .runnable) :
    (k.procs (nextProc k)).state = .runnable := by
  rcases nextProc_cases k with ⟨hr, -⟩ | ⟨he, -⟩
  · exact hr
  · rw [he]
    exact h

section
variable {kalloc : Pages → ℕ × Pages} {l : Layout}

theorem call_invariant {s : State} (h : Invariant s) {caller : ResumePoint} {k : Kernel}
    (hidle : k.idleProc = s.kernel.idleProc)
    (hother : ∀ i, i ≠ s.kernel.currentProc → k.procs i = s.kernel.procs i)
    (hpid : ∀ i, (k.procs i).pid = (s.kernel.procs i).pid)
    (hused : ∀ i, (k.procs i).state ≠ .unused → (s.kernel.procs i).state ≠ .unused)
    (hzero : (k.procs 0).state = .runnable)
    (hexit : caller = .exitReturn → (k.procs s.kernel.currentProc).state = .exited) :
    Invariant (call s caller (yield k)) := by
  have hnext : (k.procs (nextProc k)).state = .runnable :=
    nextProc_runnable (by rw [hidle, h.idle_slot]; exact hzero)
  constructor
  · exact hidle.trans h.idle_slot
  · exact (hpid 0).trans h.idle_pid
  · exact hzero
  · intro i hi hu
    exact (hpid i).trans (h.pid_slot i hi (hused i hu))
  · exact hnext
  · intro i hi hr
    by_cases hc : i = s.kernel.currentProc
    · subst hc
      simp only [call, update_self] at hr
      exact hexit hr
    · simp only [call, update_of_ne hc] at hr
      change (k.procs i).state = .exited
      rw [hother i hc]
      exact h.exit_exited i hc hr
  · intro hr
    change update s.resume s.kernel.currentProc caller (nextProc k) = .exitReturn at hr
    by_cases hc : nextProc k = s.kernel.currentProc
    · -- kept by the scheduler, so it is runnable and did not exit
      rw [hc, update_self] at hr
      rw [hc, hexit hr] at hnext
      cases hnext
    · rw [update_of_ne hc] at hr
      rw [hother _ hc, h.exit_exited _ hc hr] at hnext
      cases hnext

theorem create_invariant {s : State} (h : Invariant s) {image imageSize : ℕ}
    {i : Fin procsMax} {t : ProcTable}
    (hc : createProcess kalloc l s.kernel.toProcTable image imageSize = some (i, t)) :
    Invariant { kernel := { s.kernel with toProcTable := t }
                resume := update s.resume i .start
                control := s.control } := by
  obtain ⟨hi, -, hp⟩ := createProcess_cases hc
  have hun := (findUnused_spec hi).1
  have hne : ∀ j, (s.kernel.procs j).state ≠ .unused → j ≠ i := by
    rintro j hj rfl
    exact hj hun
  have hold : ∀ j, (s.kernel.procs j).state ≠ .unused → t.procs j = s.kernel.procs j := by
    intro j hj
    rw [hp, update_of_ne (hne j hj)]
  have hzero := hold 0 (by rw [h.idle_runnable]; decide)
  have hcur := hold s.kernel.currentProc (by rw [h.current_runnable]; decide)
  refine ⟨h.idle_slot, ?_, ?_, ?_, ?_, ?_, h.no_return⟩
  · change (t.procs 0).pid = 0
    rw [hzero, h.idle_pid]
  · change (t.procs 0).state = .runnable
    rw [hzero, h.idle_runnable]
  · intro j hj hu
    change (t.procs j).pid = j + 1
    by_cases hji : j = i
    · rw [hp, hji, update_self]
    · change (t.procs j).state ≠ .unused at hu
      rw [hp, update_of_ne hji] at hu ⊢
      exact h.pid_slot j hj hu
  · change (t.procs s.kernel.currentProc).state = .runnable
    rw [hcur, h.current_runnable]
  · intro j hj hr
    change (t.procs j).state = .exited
    by_cases hji : j = i
    · simp only [hji, update_self] at hr
      cases hr
    · simp only [update_of_ne hji] at hr
      rw [hp, update_of_ne hji]
      exact h.exit_exited j hj hr

theorem markExited_other (k : Kernel) {i : Fin procsMax} (hi : i ≠ k.currentProc) :
    (markExited k).procs i = k.procs i := by
  simp [markExited, hi]

theorem markExited_self (k : Kernel) :
    (markExited k).procs k.currentProc = { k.procs k.currentProc with state := .exited } := by
  simp [markExited]

theorem markExited_pid (k : Kernel) (i : Fin procsMax) :
    ((markExited k).procs i).pid = (k.procs i).pid := by
  by_cases hi : i = k.currentProc
  · rw [hi, markExited_self]
  · rw [markExited_other k hi]

theorem step_preserves_invariant {s s' : State} {e : Event} (h : Invariant s)
    (hs : Step kalloc l s e s') : Invariant s' := by
  cases hs with
  | create image imageSize i t hc => exact create_invariant h hc
  | yield =>
    apply call_invariant h rfl
    · exact fun _ _ => rfl
    · exact fun _ => rfl
    · exact fun _ hu => hu
    · exact h.idle_runnable
    · exact fun hc => by cases hc
  | exit hne =>
    rw [h.idle_slot] at hne
    apply call_invariant (k := markExited s.kernel) h rfl
    · exact fun i hi => markExited_other _ hi
    · exact markExited_pid _
    · intro i hu
      by_cases hi : i = s.kernel.currentProc
      · rw [hi, h.current_runnable]
        decide
      · rwa [markExited_other _ hi] at hu
    · rw [markExited_other _ (Ne.symm hne)]
      exact h.idle_runnable
    · intro _
      rw [markExited_self]

theorem execution_preserves_invariant {s s' : State} (hr : Execution kalloc l s s')
    (h : Invariant s) : Invariant s' := by
  induction hr with
  | nil => exact h
  | tail _ hs ih => exact step_preserves_invariant ih hs

theorem initProc_invariant {t : ProcTable} {k : Kernel}
    (hun : ∀ i, (t.procs i).state = .unused) (hk : initProc kalloc l t = some k) :
    Invariant (start k) := by
  unfold initProc at hk
  obtain ⟨⟨i, t'⟩, hc, hk⟩ := Option.bind_eq_some_iff.mp hk
  simp only [Option.some.injEq] at hk
  subst hk
  obtain ⟨hi, -, hp⟩ := createProcess_cases hc
  have hz : i = 0 := by
    by_contra hne
    exact (findUnused_spec hi).2 0 (Fin.pos_iff_ne_zero.mpr hne) (hun 0)
  subst hz
  constructor
  · rfl
  · simp [start]
  · simp [start, hp]
  · intro i hi hu
    refine absurd ?_ hu
    simp [start, hp, hi, hun]
  · simp [start, hp]
  · intro i _ hr
    cases hr
  · intro hr
    cases hr

theorem initProc_registered {t : ProcTable} {k : Kernel}
    (hun : ∀ i, (t.procs i).state = .unused) (hk : initProc kalloc l t = some k)
    (i : Fin procsMax) : (k.procs i).state ≠ .unused ↔ i = 0 := by
  have hinv := initProc_invariant hun hk
  unfold initProc at hk
  obtain ⟨⟨j, t'⟩, hc, hk⟩ := Option.bind_eq_some_iff.mp hk
  obtain ⟨-, -, hp⟩ := createProcess_cases hc
  have hidle : j = 0 := by
    rw [← hinv.idle_slot, ← Option.some.inj hk]
    rfl
  subst hidle
  rw [← Option.some.inj hk]
  by_cases hi : i = 0
  · simp [hi, hp]
  · simp [hi, hp, hun]

theorem initProc_current {t : ProcTable} {k : Kernel} (hk : initProc kalloc l t = some k) :
    k.currentProc = k.idleProc := by
  unfold initProc at hk
  obtain ⟨r, -, hr⟩ := Option.bind_eq_some_iff.mp hk
  rw [← Option.some.inj hr]

theorem create_empty (kalloc : Pages → ℕ × Pages) (l : Layout) {s : State} {i : Fin procsMax}
    (hi : findUnused s.kernel.procs = some i) :
    ∃ t, Step kalloc l s (.create 0 0) t ∧ t.kernel.currentProc = s.kernel.currentProc ∧
      ∃ root, t.kernel.procs = update s.kernel.procs i ⟨i + 1, .runnable, root⟩ := by
  obtain ⟨σ, hb⟩ := buildSpace_returns kalloc l
    (kalloc (framed l s.kernel.toProcTable i)).1 0 (kalloc (framed l s.kernel.toProcTable i)).2
  obtain ⟨t', hc, -⟩ := createProcess_eq_some kalloc hi hb
  exact ⟨_, .create s 0 0 i t' hc, rfl, _, (createProcess_cases hc).2.2⟩

theorem step_exited {s s' : State} {e : Event} {p : Fin procsMax} (hs : Step kalloc l s e s')
    (hp : (s.kernel.procs p).state = .exited) : (s'.kernel.procs p).state = .exited := by
  cases hs with
  | create image imageSize i t hc =>
    obtain ⟨hi, -, ht⟩ := createProcess_cases hc
    change (t.procs p).state = .exited
    rw [ht, update_of_ne, hp]
    rintro rfl
    have hun := (findUnused_spec hi).1
    rw [hp] at hun
    cases hun
  | yield => exact hp
  | exit hne =>
    change ((markExited s.kernel).procs p).state = .exited
    by_cases hc : p = s.kernel.currentProc
    · rw [hc, markExited_self]
    · rw [markExited_other _ hc, hp]

theorem execution_exited {s s' : State} {p : Fin procsMax} (hr : Execution kalloc l s s')
    (hp : (s.kernel.procs p).state = .exited) : (s'.kernel.procs p).state = .exited := by
  induction hr with
  | nil => exact hp
  | tail _ hs ih => exact step_exited hs ih

end

def Yields : Event → Prop
  | .create _ _ => False
  | .yield | .exit => True

structure RunFacts (kalloc : Pages → ℕ × Pages) (l : Layout) (s : State) : Prop where
  idle : s.kernel.idleProc = 0 ∧ (s.kernel.procs 0).pid = 0 ∧
    (s.kernel.procs 0).state = .runnable
  pid_slot : ∀ i, i ≠ 0 → (s.kernel.procs i).state ≠ .unused → (s.kernel.procs i).pid = i + 1
  pid_distinct : ∀ i j, (s.kernel.procs i).state ≠ .unused → (s.kernel.procs j).state ≠ .unused →
    (s.kernel.procs i).pid = (s.kernel.procs j).pid → i = j
  yield_runnable : ∀ e s', Yields e → Step kalloc l s e s' →
    (s'.kernel.procs s'.kernel.currentProc).state = .runnable
  idle_last : ∀ e s', Yields e → Step kalloc l s e s' →
    s'.kernel.currentProc = s'.kernel.idleProc →
    ∀ p, 0 < (s'.kernel.procs p).pid → (s'.kernel.procs p).state ≠ .runnable
  exit_final : ∀ s' t, Step kalloc l s .exit s' → Execution kalloc l s' t →
    t.kernel.currentProc ≠ s.kernel.currentProc
  exit_never_returns : s.control ≠ .exitReturn

theorem idle_chosen_last {k : Kernel} (h0 : (k.procs k.idleProc).pid = 0)
    (hn : nextProc k = k.idleProc) (p : Fin procsMax) (hp : 0 < (k.procs p).pid) :
    (k.procs p).state ≠ .runnable := by
  intro hr
  rcases nextProc_cases k with ⟨-, hpos⟩ | ⟨-, hnone⟩
  · rw [hn, h0] at hpos
    exact lt_irrefl 0 hpos
  · exact hnone p ⟨hr, hp⟩

theorem runFacts_of_invariant {kalloc : Pages → ℕ × Pages} {l : Layout} {s : State}
    (h : Invariant s) : RunFacts kalloc l s where
  idle := ⟨h.idle_slot, h.idle_pid, h.idle_runnable⟩
  pid_slot := h.pid_slot
  pid_distinct i j hi hj he := by
    have hpid : ∀ p, (s.kernel.procs p).state ≠ .unused →
        (s.kernel.procs p).pid = if p = 0 then (0 : ℕ) else (p : ℕ) + 1 := by
      intro p hp
      split
      · next h0 => rw [h0, h.idle_pid]
      · next h0 => exact h.pid_slot p h0 hp
    rw [hpid i hi, hpid j hj] at he
    split at he <;> split at he
    · next h0 h1 => rw [h0, h1]
    · omega
    · omega
    · exact Fin.ext (by omega)
  yield_runnable e s' _ hs := (step_preserves_invariant h hs).current_runnable
  idle_last e s' he hs hc := by
    have h' := step_preserves_invariant h hs
    cases hs with
    | create => cases he
    | yield =>
      refine idle_chosen_last (k := s.kernel) ?_ hc
      rw [h.idle_slot, h.idle_pid]
    | exit hne =>
      refine idle_chosen_last (k := markExited s.kernel) ?_ hc
      rw [markExited_pid]
      change (s.kernel.procs s.kernel.idleProc).pid = 0
      rw [h.idle_slot, h.idle_pid]
  exit_final s' t hs hr := by
    have h' := execution_preserves_invariant hr (step_preserves_invariant h hs)
    have hex : (s'.kernel.procs s.kernel.currentProc).state = .exited := by
      cases hs with
      | exit hne =>
        change ((markExited s.kernel).procs s.kernel.currentProc).state = .exited
        rw [markExited_self]
    intro hc
    have hrun := h'.current_runnable
    rw [hc, execution_exited hr hex] at hrun
    cases hrun
  exit_never_returns := h.no_return

/-- The facts hold in every state of every run after `init_proc`. -/
theorem scheduler_run (kalloc : Pages → ℕ × Pages) (l : Layout) (t : ProcTable)
    (hun : ∀ i, (t.procs i).state = .unused) (k : Kernel) (hk : initProc kalloc l t = some k)
    (s : State) (hr : Execution kalloc l (start k) s) : RunFacts kalloc l s :=
  runFacts_of_invariant (execution_preserves_invariant hr (initProc_invariant hun hk))

def bootTable (l : Layout) : ProcTable :=
  ⟨⟨initMemory ⟨fun _ => 0, fun _ => 0⟩ l.freeRam l.freeRamEnd, []⟩, noProcs⟩

theorem create_many (kalloc : Pages → ℕ × Pages) (l : Layout) {t : ProcTable}
    (hun : ∀ i, (t.procs i).state = .unused) {k : Kernel} (hk : initProc kalloc l t = some k)
    (n : ℕ) (hn : n < procsMax) :
    ∃ s, Execution kalloc l (start k) s ∧ s.kernel.currentProc = 0 ∧
      ∀ i, (s.kernel.procs i).state = if (i : ℕ) ≤ n then .runnable else .unused := by
  induction n with
  | zero =>
    have hinv := initProc_invariant hun hk
    refine ⟨start k, .nil _, (initProc_current hk).trans hinv.idle_slot, fun i => ?_⟩
    by_cases hi : i = 0
    · rw [hi]
      exact hinv.idle_runnable
    · have hpos : ¬ (i : ℕ) ≤ 0 := fun hle => hi (Fin.ext (Nat.le_zero.mp hle))
      rw [if_neg hpos]
      exact not_not.mp (mt (initProc_registered hun hk i).mp hi)
  | succ n ih =>
    obtain ⟨s, hr, hcur, hstate⟩ := ih (by omega)
    have hused : ∀ i, (s.kernel.procs i).state ≠ .unused ↔ (i : ℕ) ≤ n := by
      intro i
      rw [hstate]
      split <;> simp_all
    have hfree : findUnused s.kernel.procs ≠ none := fun hnone => by
      have hfull := (hused ⟨n + 1, hn⟩).mp (findUnused_eq_none.mp hnone _)
      simp only at hfull
      omega
    obtain ⟨i, hi⟩ := Option.ne_none_iff_exists'.mp hfree
    have hin := findUnused_after hused hi
    obtain ⟨u, hs, hcur', root, hp⟩ := create_empty kalloc l hi
    refine ⟨u, hr.tail hs, hcur'.trans hcur, fun j => ?_⟩
    rw [hp]
    by_cases hj : j = i
    · rw [hj, update_self, if_pos hin.le]
    · have hne := Fin.val_ne_of_ne hj
      rw [update_of_ne hj, hstate]
      simp only [show (j : ℕ) ≤ n + 1 ↔ (j : ℕ) ≤ n by omega]

/-- The idle process creates a process and yields to it, and it exits. -/
theorem scheduler_run_create_yield_exit : ∃ k s,
    initProc kallocPage sampleLayout (bootTable sampleLayout) = some k ∧
      (s.kernel.procs 1).state = .exited ∧ s.kernel.currentProc = 0 ∧
      RunFacts kallocPage sampleLayout s := by
  have hun : ∀ i, ((bootTable sampleLayout).procs i).state = .unused := noProcs_unused
  obtain ⟨k, hk⟩ := initProc_returns kallocPage sampleLayout (findUnused_all hun)
  obtain ⟨s, hr, hcur, hstate⟩ := create_many kallocPage sampleLayout hun hk 1 (by decide)
  have hi := execution_preserves_invariant hr (initProc_invariant hun hk)
  have hothers : ∀ i, i ≠ 1 → ¬ ((s.kernel.procs i).state = .runnable ∧ 0 < (s.kernel.procs i).pid) := by
    rintro i hne ⟨hrun, hpos⟩
    by_cases h0 : i = 0
    · rw [h0, hi.idle_pid] at hpos
      exact lt_irrefl 0 hpos
    · have hgt : ¬ (i : ℕ) ≤ 1 := fun hle => by
        have hz := Fin.val_ne_of_ne h0
        have hone := Fin.val_ne_of_ne hne
        simp only [Fin.val_zero, Fin.val_one] at hz hone
        omega
      rw [hstate, if_neg hgt] at hrun
      cases hrun
  have hnext : nextProc s.kernel = 1 := by
    refine nextProc_only ⟨hstate 1, ?_⟩ hothers
    rw [hi.pid_slot 1 (by decide) (by rw [hstate]; decide)]
    exact Nat.succ_pos _
  have hidle : (yield s.kernel).currentProc ≠ (yield s.kernel).idleProc := by
    change nextProc s.kernel ≠ s.kernel.idleProc
    rw [hnext, hi.idle_slot]
    decide
  have hself := markExited_self (yield s.kernel)
  have hlast : nextProc (markExited (yield s.kernel)) = 0 := by
    rcases nextProc_cases (markExited (yield s.kernel)) with ⟨hr, hp⟩ | ⟨he, -⟩
    · by_cases hc : nextProc (markExited (yield s.kernel)) = (yield s.kernel).currentProc
      · rw [hc, hself] at hr
        cases hr
      · rw [markExited_other _ hc] at hr hp
        exact absurd ⟨hr, hp⟩ (hothers _ (fun h1 => hc (h1.trans hnext.symm)))
    · exact he.trans hi.idle_slot
  have hexited : ((markExited (yield s.kernel)).procs 1).state = .exited := by
    rw [← hnext]
    exact congrArg Process.state hself
  exact ⟨k, call (call s .yieldReturn (yield s.kernel)) .exitReturn (procExit (yield s.kernel)),
    hk, hexited, hlast, scheduler_run kallocPage sampleLayout _ hun k hk _
      ((hr.tail (.yield s)).tail (.exit (call s .yieldReturn (yield s.kernel)) hidle))⟩

end Scheduler
