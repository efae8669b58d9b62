import OppoOS.ProcessSpace
import OppoOS.Scheduler

/-!
# The life of a process slot

A slot goes from unused to runnable to exited and stays there: `create_process` looks for an
unused slot only, and nothing makes an exited slot unused again.
-/
namespace ProcessSlots

open Paging PageGrants Processes ProcessSpace Scheduler Function
open AllocatorRuns (boot)

/-- `create_process` runs into `PANIC("No free process slots!")`. -/
def SlotPanic (s : State) : Prop := findUnused s.kernel.procs = none

def liveOthers (k : Kernel) : ℕ :=
  ((Finset.univ : Finset (Fin procsMax)).filter fun i =>
    i ≠ k.idleProc ∧ (k.procs i).state = .runnable).card

/-- At most `PROCS_MAX - 1` other processes at a time, and no allocation has failed. -/
def Fits (s : State) : Prop :=
  liveOthers s.kernel ≤ procsMax - 1 ∧ 0 ∉ s.kernel.pages.granted

inductive CreateRun (kalloc : Pages → ℕ × Pages) (l : Layout) (ok : State → Prop) (s : State) :
    ℕ → State → Prop where
  | start : ok s → CreateRun kalloc l ok s 0 s
  | create {n t image imageSize u} : CreateRun kalloc l ok s n t →
      Step kalloc l t (.create image imageSize) u → ok u → CreateRun kalloc l ok s (n + 1) u
  | schedule {n t e u} : CreateRun kalloc l ok s n t → Yields e → Step kalloc l t e u → ok u →
      CreateRun kalloc l ok s n u

/-- The slots up to the `n`-th are in use, whether their processes have exited or not. -/
def SlotsUsed (n : ℕ) (s : State) : Prop :=
  ∀ i, (s.kernel.procs i).state ≠ .unused ↔ (i : ℕ) ≤ n

section
variable {kalloc : Pages → ℕ × Pages} {l : Layout} {ok : State → Prop} {s t : State} {n : ℕ}

theorem SlotsUsed.find (h : SlotsUsed n s) {i : Fin procsMax}
    (hi : findUnused s.kernel.procs = some i) : (i : ℕ) = n + 1 := findUnused_after h hi

theorem SlotsUsed.panic_iff (h : SlotsUsed n s) : SlotPanic s ↔ procsMax - 1 ≤ n := by
  rw [SlotPanic, findUnused_eq_none]
  constructor
  · intro hall
    exact (h (Fin.last 7)).mp (hall _)
  · intro hn i
    have := i.isLt
    exact (h i).mpr (by omega)

theorem SlotsUsed.update (h : SlotsUsed n s) {i : Fin procsMax} (hi : (i : ℕ) = n + 1)
    {proc : Process} (hp : proc.state ≠ .unused)
    (ht : t.kernel.procs = Function.update s.kernel.procs i proc) : SlotsUsed (n + 1) t := by
  intro j
  rw [ht]
  by_cases hj : j = i
  · rw [hj, update_self]
    exact iff_of_true hp (by omega)
  · rw [update_of_ne hj, h j]
    have := Fin.val_ne_of_ne hj
    omega

theorem create_slots (h : SlotsUsed n s) {image imageSize : ℕ}
    (hs : Step kalloc l s (.create image imageSize) t) : SlotsUsed (n + 1) t := by
  cases hs with
  | create image imageSize i t hc =>
    obtain ⟨hi, -, hp⟩ := createProcess_cases hc
    exact h.update (h.find hi) ProcState.noConfusion hp

theorem schedule_slots {e : Event} (h : SlotsUsed n s) (he : Yields e) (hinv : Invariant s)
    (hs : Step kalloc l s e t) : SlotsUsed n t := by
  cases hs with
  | create => cases he
  | yield => exact h
  | exit hne =>
    intro i
    rw [← h i]
    change ((markExited s.kernel).procs i).state ≠ .unused ↔ _
    by_cases hi : i = s.kernel.currentProc
    · rw [hi, markExited_self, hinv.current_runnable]
      exact iff_of_true ProcState.noConfusion ProcState.noConfusion
    · rw [markExited_other _ hi]

theorem createRun_slots (h0 : SlotsUsed 0 s) (hi : Invariant s)
    (hr : CreateRun kalloc l ok s n t) : Invariant t ∧ SlotsUsed n t := by
  induction hr with
  | start => exact ⟨hi, h0⟩
  | create _ hs _ ih => exact ⟨step_preserves_invariant ih.1 hs, create_slots ih.2 hs⟩
  | schedule _ he hs _ ih => exact ⟨step_preserves_invariant ih.1 hs, schedule_slots ih.2 he ih.1 hs⟩

theorem start_slots {t : ProcTable} {k : Kernel} (hun : ∀ i, (t.procs i).state = .unused)
    (hk : initProc kalloc l t = some k) : SlotsUsed 0 (start k) := by
  intro i
  refine (initProc_registered hun hk i).trans ?_
  rw [Fin.ext_iff]
  exact Nat.le_zero.symm

end

section
variable {kalloc : Pages → ℕ × Pages} {l : Layout} {s t : State} {n : ℕ}

theorem liveOthers_le (k : Kernel) : liveOthers k ≤ procsMax - 1 := by
  have hsub : (Finset.univ : Finset (Fin procsMax)).filter (fun i =>
      i ≠ k.idleProc ∧ (k.procs i).state = .runnable) ⊆ Finset.univ.erase k.idleProc := by
    intro i hi
    exact Finset.mem_erase.mpr ⟨(Finset.mem_filter.mp hi).2.1, Finset.mem_univ i⟩
  have hcard := Finset.card_le_card hsub
  rwa [Finset.card_erase_of_mem (Finset.mem_univ _), Finset.card_fin] at hcard

/-- `n` processes were created; those of `run`, and the idle one, are runnable. -/
structure Registered (l : Layout) (n : ℕ) (run : Finset (Fin procsMax)) (cur : Fin procsMax)
    (s : State) : Prop where
  invariant : Invariant s
  slots : SlotsUsed n s
  current : s.kernel.currentProc = cur
  runnable : ∀ i, i ≠ 0 → ((s.kernel.procs i).state = .runnable ↔ i ∈ run)
  owned : Owned (heapOf l) [] s.kernel.pages
  room : s.kernel.pages.granted.length ≤ (n + 1) * 3588

theorem fits_of_owned (h : Owned (heapOf l) [] s.kernel.pages) : Fits s :=
  ⟨liveOthers_le _, h.zero_notMem⟩

theorem create_pages (hk : PageAllocator (heapOf l) [] kalloc) {t : ProcTable} {i : Fin procsMax}
    (ho : Owned (heapOf l) [] t.pages) (hi : findUnused t.procs = some i)
    (hroom : t.pages.granted.length + 3588 ≤ 32768) :
    ∃ t', createProcess kalloc l t 0 0 = some (i, t') ∧ Owned (heapOf l) [] t'.pages ∧
      t'.pages.granted.length ≤ t.pages.granted.length + 3588 := by
  have hneed := pagesNeeded_le l (Nat.zero_le maxImage)
  have hadd := ho.freePages_add
  rw [freePages_nil, heapOf_totalPages] at hadd
  have hfree : pagesNeeded l 0 ≤ freePages (heapOf l) [] t.pages.granted := by omega
  obtain ⟨t', hc, hok⟩ := createProcess_served hk ho 0 hi hfree
  obtain ⟨loc, frames, hnew⟩ := createProcess_space hk ho hc hok
  refine ⟨t', hc, hnew.space.owned, ?_⟩
  have hcount := hnew.space.count
  simp only [pagesNeeded] at hneed
  omega

theorem Registered.eligible {run : Finset (Fin procsMax)} {cur : Fin procsMax}
    (h : Registered l n run cur s) (i : Fin procsMax) :
    (s.kernel.procs i).state = .runnable ∧ 0 < (s.kernel.procs i).pid ↔ i ≠ 0 ∧ i ∈ run := by
  by_cases hi : i = 0
  · rw [hi, h.invariant.idle_pid]
    simp
  · rw [h.runnable i hi]
    constructor
    · exact fun hr => ⟨hi, hr.1⟩
    · intro hr
      have hrun := (h.runnable i hi).mpr hr.2
      rw [h.invariant.pid_slot i hi (by rw [hrun]; decide)]
      exact ⟨hr.2, Nat.succ_pos _⟩

theorem registered_create (hk : PageAllocator (heapOf l) [] kalloc)
    (h : Registered l n ∅ 0 s) (hn : n < procsMax - 1) :
    ∃ i t, i ≠ 0 ∧ Step kalloc l s (.create 0 0) t ∧ Registered l (n + 1) {i} 0 t := by
  have hfree : ¬ SlotPanic s := mt h.slots.panic_iff.mp (not_le.mpr hn)
  obtain ⟨i, hi⟩ := Option.ne_none_iff_exists'.mp hfree
  have hin := h.slots.find hi
  have hroom := h.room
  simp only [procsMax] at hn
  obtain ⟨t', hc, ho', hlen⟩ := create_pages hk h.owned hi (by omega)
  obtain ⟨-, -, hp⟩ := createProcess_cases hc
  have hs : Step kalloc l s _ _ := .create s 0 0 i t' hc
  refine ⟨i, _, ?_, hs, step_preserves_invariant h.invariant hs, create_slots h.slots hs,
    h.current, ?_, ho', ?_⟩
  · rintro rfl
    cases hin
  · intro j hj
    change (t'.procs j).state = .runnable ↔ j ∈ {i}
    rw [hp, Finset.mem_singleton]
    by_cases hji : j = i
    · simp [hji]
    · rw [update_of_ne hji, h.runnable j hj]
      simp [hji]
  · change t'.pages.granted.length ≤ _
    omega

theorem registered_yield {i : Fin procsMax} (h : Registered l n {i} 0 s) (hi : i ≠ 0) :
    ∃ t, Step kalloc l s .yield t ∧ Registered l n {i} i t := by
  have hs : Step kalloc l s .yield _ := .yield s
  have hnext : nextProc s.kernel = i := by
    rcases nextProc_cases s.kernel with hr | ⟨-, hnone⟩
    · exact Finset.mem_singleton.mp ((h.eligible _).mp hr).2
    · exact absurd ((h.eligible i).mpr ⟨hi, Finset.mem_singleton_self i⟩) (hnone i)
  exact ⟨_, hs, step_preserves_invariant h.invariant hs,
    schedule_slots (e := .yield) h.slots trivial h.invariant hs, hnext, h.runnable, h.owned,
    h.room⟩

theorem registered_exit {i : Fin procsMax} (h : Registered l n {i} i s) (hi : i ≠ 0) :
    ∃ t, Step kalloc l s .exit t ∧ Registered l n ∅ 0 t := by
  have hs : Step kalloc l s .exit _ :=
    .exit s (by rw [h.current, h.invariant.idle_slot]; exact hi)
  have hrun : ∀ j, j ≠ 0 → ((markExited s.kernel).procs j).state ≠ .runnable := by
    intro j hj
    by_cases hji : j = s.kernel.currentProc
    · rw [hji, markExited_self]
      exact ProcState.noConfusion
    · rw [markExited_other _ hji, ne_eq, h.runnable j hj, Finset.mem_singleton, ← h.current]
      exact hji
  have hnext : nextProc (markExited s.kernel) = 0 := by
    rcases nextProc_cases (markExited s.kernel) with ⟨hr, hp⟩ | ⟨hidle, -⟩
    · by_contra hne
      exact hrun _ hne hr
    · exact hidle.trans h.invariant.idle_slot
  refine ⟨_, hs, step_preserves_invariant h.invariant hs,
    schedule_slots (e := .exit) h.slots trivial h.invariant hs, hnext, fun j hj => ?_, h.owned,
    h.room⟩
  exact iff_of_false (hrun j hj) (Finset.notMem_empty j)

theorem Registered.none_live (h : Registered l n ∅ 0 s) : liveOthers s.kernel = 0 := by
  rw [liveOthers, Finset.card_eq_zero, Finset.filter_eq_empty_iff]
  rintro i - ⟨hne, hrun⟩
  rw [h.invariant.idle_slot] at hne
  exact Finset.notMem_empty i ((h.runnable i hne).mp hrun)

theorem exit_round (hk : PageAllocator (heapOf l) [] kalloc) (h : Registered l n ∅ 0 s)
    (hn : n < procsMax - 1) {k : Kernel} (hr : CreateRun kalloc l Fits (start k) n s) :
    ∃ u, CreateRun kalloc l Fits (start k) (n + 1) u ∧ Registered l (n + 1) ∅ 0 u := by
  obtain ⟨i, s₁, hi, hs₁, h₁⟩ := registered_create hk h hn
  obtain ⟨s₂, hs₂, h₂⟩ := @registered_yield kalloc l s₁ (n + 1) i h₁ hi
  obtain ⟨s₃, hs₃, h₃⟩ := @registered_exit kalloc l s₂ (n + 1) i h₂ hi
  refine ⟨s₃, ?_, h₃⟩
  have hr₁ := hr.create hs₁ (fits_of_owned h₁.owned)
  have hr₂ := hr₁.schedule (e := .yield) trivial hs₂ (fits_of_owned h₂.owned)
  exact hr₂.schedule (e := .exit) trivial hs₃ (fits_of_owned h₃.owned)

/-- After `init_memory` and `init_proc` seven processes can be created one after the other,
each exiting before the next. -/
theorem exit_rounds (hk : PageAllocator (heapOf l) [] kalloc) {k : Kernel}
    (h0 : Registered l 0 ∅ 0 (start k)) (hn : n ≤ procsMax - 1) :
    ∃ u, CreateRun kalloc l Fits (start k) n u ∧ Registered l n ∅ 0 u := by
  induction n with
  | zero => exact ⟨_, .start (fits_of_owned h0.owned), h0⟩
  | succ n ih =>
    obtain ⟨s, hr, hs⟩ := ih (by omega)
    exact exit_round hk hs (by omega) hr

theorem initProc_alone (hk : PageAllocator (heapOf l) [] kalloc) {t : ProcTable}
    (hun : ∀ i, (t.procs i).state = .unused) (ho : Owned (heapOf l) [] t.pages)
    (hg : t.pages.granted = []) :
    ∃ k, initProc kalloc l t = some k ∧ Registered l 0 ∅ 0 (start k) := by
  obtain ⟨t', hc, ho', hlen⟩ := create_pages hk ho (findUnused_all hun) (by simp [hg])
  have hinit : initProc kalloc l t = some _ := Option.bind_eq_some_iff.mpr ⟨(0, t'), hc, rfl⟩
  refine ⟨_, hinit, initProc_invariant hun hinit, start_slots hun hinit, rfl, ?_, ho', ?_⟩
  · intro i hi
    refine iff_of_false (fun hrun => ?_) (Finset.notMem_empty i)
    refine hi ((initProc_registered hun hinit i).mp fun hun => ?_)
    exact ProcState.noConfusion (hrun.symm.trans hun)
  · rw [hg] at hlen
    exact hlen

end

theorem bootTable_owned (l : Layout) : Owned (heapOf l) [] (bootTable l).pages := by
  have h := owned_boot (heapOf l) fun _ => 0
  simp only [boot, heapOf] at h ⊢
  exact h

/-- After `n` calls of `create_process` since `init_proc` the next one finds a slot exactly
when `n` is below `PROCS_MAX - 1`, however many of the processes have exited. -/
theorem finds_slot_iff (kalloc : Pages → ℕ × Pages) (l : Layout) (ok : State → Prop)
    (t : ProcTable) (hun : ∀ i, (t.procs i).state = .unused) (k : Kernel)
    (hk : initProc kalloc l t = some k) (n : ℕ) (s : State)
    (hr : CreateRun kalloc l ok (start k) n s) :
    (¬ SlotPanic s ↔ n < procsMax - 1) ∧
      (SlotPanic s → ∀ image imageSize,
        createProcess kalloc l s.kernel.toProcTable image imageSize = none) := by
  have hslots := (createRun_slots (start_slots hun hk) (initProc_invariant hun hk) hr).2
  constructor
  · rw [hslots.panic_iff, not_le]
  · intro hp image imageSize
    exact Option.bind_eq_none_iff.mpr fun i hi => absurd (hi.symm.trans hp) (by simp)

/-- After three processes have come and gone. -/
theorem finds_slot_after_three_rounds : ∃ k s,
    initProc kallocPage sampleLayout (bootTable sampleLayout) = some k ∧
      CreateRun kallocPage sampleLayout Fits (start k) 3 s ∧ liveOthers s.kernel = 0 ∧
      (¬ SlotPanic s ↔ 3 < procsMax - 1) ∧
      (SlotPanic s → ∀ image imageSize,
        createProcess kallocPage sampleLayout s.kernel.toProcTable image imageSize = none) := by
  have hk := kallocPage_allocator (heapOf sampleLayout) []
  obtain ⟨k, hinit, h0⟩ := initProc_alone hk (t := bootTable sampleLayout) noProcs_unused
    (bootTable_owned _) rfl
  obtain ⟨s, hr, hs⟩ := exit_rounds hk h0 (n := 3) (by decide)
  exact ⟨k, s, hinit, hr, hs.none_live, finds_slot_iff kallocPage sampleLayout Fits _
    noProcs_unused k hinit 3 s hr⟩

/-- Seven processes come and go, one at a time, and no allocation fails; the eighth call of
`create_process` runs into the panic with no other process registered and not exited. -/
theorem exited_slots_not_reused : ∃ k s,
    initProc kallocPage sampleLayout (bootTable sampleLayout) = some k ∧
      CreateRun kallocPage sampleLayout Fits (start k) 7 s ∧ liveOthers s.kernel = 0 ∧
      SlotPanic s := by
  have hk := kallocPage_allocator (heapOf sampleLayout) []
  obtain ⟨k, hinit, h0⟩ := initProc_alone hk (t := bootTable sampleLayout) noProcs_unused
    (bootTable_owned _) rfl
  obtain ⟨s, hr, hs⟩ := exit_rounds hk h0 (n := 7) le_rfl
  exact ⟨k, s, hinit, hr, hs.none_live, hs.slots.panic_iff.mpr le_rfl⟩

end ProcessSlots
