import OppoOS.Scheduler

/-!
# Round-robin order

While a runnable process waits, every call of the scheduler moves on towards its slot,
whatever is created and whoever exits in between.
-/
namespace RoundRobin

open Paging Processes Scheduler Function

/-- How many slots after `a`, going round the array, the slot `p` comes. -/
def slotDistance (a p : Fin procsMax) : ℕ := (p - a : Fin procsMax)

theorem slotDistance_pos {a p : Fin procsMax} (h : a ≠ p) : 0 < slotDistance a p := by
  have ha := a.isLt
  have hp := p.isLt
  have hne := Fin.val_ne_of_ne h
  simp only [slotDistance, Fin.sub_def, procsMax] at ha hp ⊢
  omega

def Waiting (p : Fin procsMax) (s : State) : Prop :=
  (s.kernel.procs p).state = .runnable ∧ s.kernel.currentProc ≠ p

def selected (s : State) (sel : List (Fin procsMax)) : Event → List (Fin procsMax)
  | .create _ _ => sel
  | .yield | .exit => s.kernel.currentProc :: sel

/-- A run in which `p` waits all the time, with the processes selected in it, the latest
first. -/
inductive WaitingRun (kalloc : Pages → ℕ × Pages) (l : Layout) (p : Fin procsMax) (s : State) :
    List (Fin procsMax) → State → Prop where
  | start : Waiting p s → WaitingRun kalloc l p s [] s
  | step {sel t e u} : WaitingRun kalloc l p s sel t → Step kalloc l t e u → Waiting p u →
      WaitingRun kalloc l p s (selected u sel e) u

theorem nextProc_first {k : Kernel} {i : ℕ} (hi : i < procsMax)
    (hr : (k.procs (slotAfter k i)).state = .runnable) (hp : 0 < (k.procs (slotAfter k i)).pid) :
    ∃ j, j ≤ i ∧ nextProc k = slotAfter k j ∧ 0 < (k.procs (slotAfter k j)).pid := by
  unfold nextProc
  cases hf : ((List.range procsMax).map (slotAfter k)).find? fun p =>
      (k.procs p).state = .runnable ∧ 0 < (k.procs p).pid with
  | none =>
    have hmem : slotAfter k i ∈ (List.range procsMax).map (slotAfter k) :=
      List.mem_map.mpr ⟨i, List.mem_range.mpr hi, rfl⟩
    have hno := List.find?_eq_none.mp hf _ hmem
    simp [hr, hp] at hno
  | some b =>
    obtain ⟨hb, j, hj, hjb, hmin⟩ := List.find?_eq_some_iff_getElem.mp hf
    have hbj : slotAfter k j = b := by simpa using hjb
    refine ⟨j, ?_, hbj.symm, ?_⟩
    · by_contra hlt
      have hno := hmin i (by omega)
      simp [hr, hp] at hno
    · rw [hbj]
      simp only [decide_eq_true_eq] at hb
      exact hb.2

/-- The numbers of the slots: the search starts at the idle task itself when that is
current, and right behind the current process otherwise. -/
structure Numbered (k : Kernel) : Prop where
  idle_pid : (k.procs 0).pid = 0
  pid_slot : k.currentProc ≠ 0 → (k.procs k.currentProc).pid = k.currentProc + 1

theorem slotAfter_idle {k : Kernel} (h : Numbered k) (hc : k.currentProc = 0) (i : ℕ) :
    slotAfter k i = Fin.ofNat procsMax i := by
  rw [slotAfter, hc, h.idle_pid, Nat.zero_add]

theorem slotAfter_process {k : Kernel} (h : Numbered k) (hc : k.currentProc ≠ 0) (i : ℕ) :
    slotAfter k i = Fin.ofNat procsMax (k.currentProc + 1 + i) := by
  rw [slotAfter, h.pid_slot hc]

/-- One call of `yield`: the waiting process is selected or comes nearer. -/
theorem nextProc_nearer {k : Kernel} (h : Numbered k) {p : Fin procsMax}
    (hr : (k.procs p).state = .runnable) (hp : 0 < (k.procs p).pid) (hne : k.currentProc ≠ p) :
    nextProc k = p ∨ slotDistance (nextProc k) p < slotDistance k.currentProc p := by
  have hpl := p.isLt
  have hcl := k.currentProc.isLt
  by_cases hc : k.currentProc = 0
  · have hself : slotAfter k p = p := by
      rw [slotAfter_idle h hc]
      exact Fin.ofNat_val_eq_self p
    obtain ⟨j, hj, hn, hpos⟩ := nextProc_first (k := k) hpl (by rwa [hself]) (by rwa [hself])
    -- the idle task's own slot, where the search starts, is passed over
    have hj0 : j ≠ 0 := by
      rintro rfl
      rw [slotAfter_idle h hc] at hpos
      exact absurd hpos (by simp [h.idle_pid])
    rw [hn, slotAfter_idle h hc, hc]
    simp only [slotDistance, Fin.ext_iff, Fin.sub_def, Fin.ofNat, procsMax] at hpl ⊢
    simp only [Fin.val_zero]
    omega
  · have hself : slotAfter k (slotDistance k.currentProc p - 1) = p := by
      rw [slotAfter_process h hc]
      apply Fin.ext
      have hne' := Fin.val_ne_of_ne hne
      simp only [slotDistance, Fin.sub_def, Fin.ofNat, procsMax] at hpl hcl ⊢
      omega
    have hi : slotDistance k.currentProc p - 1 < procsMax := by
      have := (p - k.currentProc).isLt
      simp only [slotDistance]
      omega
    obtain ⟨j, hj, hn, -⟩ := nextProc_first hi (by rwa [hself]) (by rwa [hself])
    rw [hn, slotAfter_process h hc]
    have hne' := Fin.val_ne_of_ne hne
    simp only [slotDistance, Fin.ext_iff, Fin.sub_def, Fin.ofNat, procsMax] at hj hpl hcl ⊢
    omega

section
variable {kalloc : Pages → ℕ × Pages} {l : Layout} {p : Fin procsMax} {s t u : State}
  {sel : List (Fin procsMax)} {e : Event}

theorem numbered_of_invariant (h : Invariant s) : Numbered s.kernel where
  idle_pid := h.idle_pid
  pid_slot hc := h.pid_slot _ hc (by rw [h.current_runnable]; decide)

theorem numbered_markExited {k : Kernel} (h : Numbered k) : Numbered (markExited k) where
  idle_pid := (markExited_pid k 0).trans h.idle_pid
  pid_slot hc := (markExited_pid k _).trans (h.pid_slot hc)

theorem step_nearer (h : Invariant s) (hp : 0 < (s.kernel.procs p).pid) (hw : Waiting p s)
    (he : Yields e) (hs : Step kalloc l s e t) :
    t.kernel.currentProc = p ∨
      slotDistance t.kernel.currentProc p < slotDistance s.kernel.currentProc p := by
  have hnum := numbered_of_invariant h
  cases hs with
  | create => cases he
  | yield => exact nextProc_nearer hnum hw.1 hp hw.2
  | exit hne =>
    apply nextProc_nearer (k := markExited s.kernel) (numbered_markExited hnum)
    · rw [markExited_other _ (Ne.symm hw.2)]
      exact hw.1
    · rwa [markExited_pid]
    · exact hw.2

theorem pid_pos_iff (h : Invariant s) (hw : Waiting p s) :
    0 < (s.kernel.procs p).pid ↔ p ≠ 0 := by
  constructor
  · rintro hp rfl
    exact absurd hp (by simp [h.idle_pid])
  · intro hp
    rw [h.pid_slot p hp (by rw [hw.1]; decide)]
    exact Nat.succ_pos _

/-- The state of a run in which `p` waits: `sel` are the processes selected since `first` was
current, each nearer to `p` than all before it. -/
structure Ranking (p first : Fin procsMax) (sel : List (Fin procsMax)) (s : State) : Prop where
  invariant : Invariant s
  waiting : Waiting p s
  nearest : ∀ b ∈ sel ++ [first], slotDistance s.kernel.currentProc p ≤ slotDistance b p
  ordered : (sel ++ [first]).Pairwise fun a b => slotDistance a p < slotDistance b p
  count : sel.length + slotDistance s.kernel.currentProc p ≤ slotDistance first p

theorem ranking_start (h : Invariant s) (hw : Waiting p s) :
    Ranking p s.kernel.currentProc [] s where
  invariant := h
  waiting := hw
  nearest b hb := by
    rw [List.mem_singleton.mp hb]
  ordered := List.pairwise_singleton _ _
  count := (Nat.zero_add _).le

theorem Ranking.select {first : Fin procsMax} (h : Ranking p first sel s) (hi : Invariant t)
    (hw : Waiting p t)
    (hlt : slotDistance t.kernel.currentProc p < slotDistance s.kernel.currentProc p) :
    Ranking p first (t.kernel.currentProc :: sel) t where
  invariant := hi
  waiting := hw
  nearest b hb := by
    rw [List.cons_append] at hb
    rcases List.mem_cons.mp hb with rfl | hb
    · exact le_rfl
    · exact hlt.le.trans (h.nearest b hb)
  ordered := by
    apply List.Pairwise.cons
    · intro b hb
      exact hlt.trans_le (h.nearest b hb)
    · exact h.ordered
  count := by
    have hc := h.count
    rw [List.length_cons]
    omega

theorem step_ranking {first : Fin procsMax} (hp : p ≠ 0) (h : Ranking p first sel s)
    (hs : Step kalloc l s e t) (hw : Waiting p t) :
    Ranking p first (selected t sel e) t := by
  have hi := step_preserves_invariant h.invariant hs
  have hpid := (pid_pos_iff h.invariant h.waiting).mpr hp
  have hnear : Yields e →
      slotDistance t.kernel.currentProc p < slotDistance s.kernel.currentProc p := fun he =>
    (step_nearer h.invariant hpid h.waiting he hs).resolve_left hw.2
  cases e with
  | create image imageSize =>
    cases hs
    exact ⟨hi, hw, h.nearest, h.ordered, h.count⟩
  | yield => exact h.select hi hw (hnear trivial)
  | exit => exact h.select hi hw (hnear trivial)

theorem waitingRun_ranking (h : Invariant s) (hp : p ≠ 0) (hr : WaitingRun kalloc l p s sel t) :
    Ranking p s.kernel.currentProc sel t := by
  induction hr with
  | start hw => exact ranking_start h hw
  | step _ hs hw ih => exact step_ranking hp ih hs hw

theorem WaitingRun.first (hr : WaitingRun kalloc l p s sel t) : Waiting p s := by
  induction hr with
  | start hw => exact hw
  | step _ _ _ ih => exact ih

end

/-- From any state reached after `init_proc`, as long as `p` waits: the next call of the
scheduler selects `p` or a process nearer to it, nobody has been selected twice, and fewer
processes were selected than there are slots in between. -/
theorem round_robin (kalloc : Pages → ℕ × Pages) (l : Layout) (t : ProcTable)
    (hun : ∀ i, (t.procs i).state = .unused) (k : Kernel) (hk : initProc kalloc l t = some k)
    (s : State) (hr : Execution kalloc l (start k) s) (p : Fin procsMax)
    (hp : 0 < (s.kernel.procs p).pid) (sel : List (Fin procsMax)) (u : State)
    (hw : WaitingRun kalloc l p s sel u) :
    (∀ e v, Yields e → Step kalloc l u e v → v.kernel.currentProc = p ∨
        slotDistance v.kernel.currentProc p < slotDistance u.kernel.currentProc p) ∧
      (sel ++ [s.kernel.currentProc]).Nodup ∧
      sel.length < slotDistance s.kernel.currentProc p := by
  have hi := execution_preserves_invariant hr (initProc_invariant hun hk)
  have hp0 := (pid_pos_iff hi hw.first).mp hp
  have hrank := waitingRun_ranking hi hp0 hw
  have hpid := (pid_pos_iff hrank.invariant hrank.waiting).mpr hp0
  refine ⟨fun e v he hs => step_nearer hrank.invariant hpid hrank.waiting he hs, ?_, ?_⟩
  · apply hrank.ordered.imp
    rintro a b hlt rfl
    exact lt_irrefl _ hlt
  · have hc := hrank.count
    have hpos := slotDistance_pos hrank.waiting.2
    omega

theorem nextProc_adjacent {s : State} (h : Invariant s) {p : Fin procsMax} (hp : p ≠ 0)
    (hr : (s.kernel.procs p).state = .runnable) (hd : slotDistance s.kernel.currentProc p = 1) :
    nextProc s.kernel = p := by
  have hpid : 0 < (s.kernel.procs p).pid := by
    rw [h.pid_slot p hp (by rw [hr]; decide)]
    exact Nat.succ_pos _
  have hne : s.kernel.currentProc ≠ p := fun hc => by
    rw [hc] at hd
    simp [slotDistance] at hd
  rcases nextProc_nearer (numbered_of_invariant h) hr hpid hne with hn | hlt
  · exact hn
  · by_contra hn
    have hpos : 0 < slotDistance (nextProc s.kernel) p := slotDistance_pos hn
    omega

theorem yield_adjacent (kalloc : Pages → ℕ × Pages) (l : Layout) {s : State} (h : Invariant s)
    {p : Fin procsMax} (hp : p ≠ 0) (hr : (s.kernel.procs p).state = .runnable)
    (hd : slotDistance s.kernel.currentProc p = 1) :
    ∃ t, Step kalloc l s .yield t ∧ t.kernel.currentProc = p ∧ t.kernel.procs = s.kernel.procs :=
  ⟨_, .yield s, nextProc_adjacent h hp hr hd, rfl⟩

/-- With three processes the third waits while the idle task yields to the first and that one
to the second. -/
theorem round_robin_third_process : ∃ s u : State,
    WaitingRun kallocPage sampleLayout 3 s [2, 1] u ∧
    (∀ e v, Yields e → Step kallocPage sampleLayout u e v → v.kernel.currentProc = 3 ∨
      slotDistance v.kernel.currentProc 3 < slotDistance u.kernel.currentProc 3) ∧
    ([2, 1] ++ [s.kernel.currentProc]).Nodup ∧ 2 < slotDistance s.kernel.currentProc 3 := by
  have hun : ∀ i, ((bootTable sampleLayout).procs i).state = .unused := noProcs_unused
  obtain ⟨k, hk⟩ := initProc_returns kallocPage sampleLayout (findUnused_all hun)
  obtain ⟨s, hr, hcur, hstate⟩ := create_many kallocPage sampleLayout hun hk 3 (by decide)
  have hi := execution_preserves_invariant hr (initProc_invariant hun hk)
  have hpid : 0 < (s.kernel.procs 3).pid := by
    rw [hi.pid_slot 3 (by decide) (by rw [hstate]; decide)]
    exact Nat.succ_pos _
  obtain ⟨t, hst, hct, hpt⟩ := yield_adjacent kallocPage sampleLayout hi (p := 1) (by decide)
    (hstate 1) (by rw [hcur]; decide)
  have hit := step_preserves_invariant hi hst
  obtain ⟨u, hsu, hcu, hpu⟩ := yield_adjacent kallocPage sampleLayout hit (p := 2) (by decide)
    (by rw [hpt]; exact hstate 2) (by rw [hct]; decide)
  have hs : Waiting 3 s := ⟨hstate 3, by rw [hcur]; decide⟩
  have ht : Waiting 3 t := ⟨by rw [hpt]; exact hstate 3, by rw [hct]; decide⟩
  have hu : Waiting 3 u := ⟨by rw [hpu, hpt]; exact hstate 3, by rw [hcu]; decide⟩
  have hw := ((WaitingRun.start hs).step hst ht).step hsu hu
  rw [selected, selected, hcu, hct] at hw
  exact ⟨s, u, hw, round_robin kallocPage sampleLayout _ hun k hk s hr 3 hpid _ u hw⟩

end RoundRobin
