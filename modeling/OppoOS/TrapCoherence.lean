import OppoOS.ProcessSlots
import OppoOS.TrapInvariant

/-!
# Traps return as they came

A system call of a process from its trap to its return, whatever the other processes do in
between, and the first entry of a new process.
-/
namespace TrapCoherence

open ByteMemory RiscV ContextSwitch Paging Processes ProcessSpace SystemCalls SavedContexts TrapInvariant
open PageGrants ProcessSlots Function
open BuddyAllocator (pageSize)

def consumed (p : Fin procsMax) (s : State) : Event → List UInt8
  | .getc c => if s.current = p then [c] else []
  | _ => []

/-- Runs of a step relation in which `p` does not return from its trap, with the characters it
consumes. `call` is what a step is among the steps of the system calls. -/
inductive WithinTrap {ε : Type} (step : State → ε → State → Prop) (call : ε → Option Event)
    (p : Fin procsMax) : State → List UInt8 → State → Prop where
  | nil (s) : WithinTrap step call p s [] s
  | tail {s got t e u} : WithinTrap step call p s got t → step t e u →
      ¬ (call e = some .sysret ∧ t.current = p) →
      WithinTrap step call p s (got ++ (call e).elim [] (consumed p t)) u

abbrev During (l : Layout) (p : Fin procsMax) : State → List UInt8 → State → Prop :=
  WithinTrap (Step l) some p

/-- A trap that `p` has taken is still there and has consumed `got`. -/
def Carries (p : Fin procsMax) (s : State) (got : List UInt8) (t : State) : Prop :=
  ∀ tr, s.traps p = some tr → ∃ tr', t.traps p = some tr' ∧ tr'.regs = tr.regs ∧
    tr'.pc = tr.pc ∧ tr'.got.toList = tr.got.toList ++ got

def InUser (s : State) (p : Fin procsMax) : Prop := s.current = p ∧ ∃ pc, s.mode = .user pc

/-- A call of `yield` has got to the `ret` of `switch_context`, in the kernel `k` with the next
process chosen. -/
structure Switched (s : State) (k : Kernel) (caller : Scheduler.ResumePoint) (mode : Mode)
    (t : State) : Prop where
  ret : t.mode = .ret
  procs : t.kernel.procs = k.procs
  current : t.current = nextProc k
  control : t.sched.control = update s.sched.resume s.current caller (nextProc k)
  resume : t.sched.resume = update s.sched.resume s.current caller
  calls : ∃ c, c.mode = mode ∧ t.calls = update s.calls s.current (some c)
  traps : t.traps = s.traps
  input : t.input = s.input

def dispatched (s : State) (regs : Reg → Word) : State :=
  { s with
    regs := regs
    csrs := update (update s.csrs .sepc (BitVec.ofNat 64 userBase)) .sstatus sstatusSpie
    mode := .user (BitVec.ofNat 64 userBase) }

inductive Unstarted (l : Layout) (p : Fin procsMax) : State → State → Prop where
  | nil (s) : Unstarted l p s s
  | tail {s t e u} : Unstarted l p s t → Step l t e u → ¬ InUser u p → Unstarted l p s u

structure Designates (satp : Word) (pageTable : ℕ) : Prop where
  mode : satp.toNat / 2 ^ 60 = 8
  ppn : satp.toNat % 2 ^ 44 * pageSize = pageTable

/-- Traps go to the process's own stack, translation through its own table. -/
structure OwnContext (l : Layout) (s : State) (p : Fin procsMax) : Prop where
  current : s.current = p
  sscratch : (s.csrs .sscratch).toNat = l.stackTop p
  satp : Designates (s.csrs .satp) (s.kernel.procs p).pageTable

/-- The return in `u` from the trap that the process took at `pc` in `s`. -/
structure Coherent (l : Layout) (s : State) (pc : Word) (got : List UInt8) (u : State) :
    Prop where
  regs : ∀ r, r ≠ .a0 → u.regs r = s.regs r
  getc : s.regs .a3 = sysGetc → ∃ c, got = [c] ∧ u.regs .a0 = charWord c
  others : s.regs .a3 ≠ sysGetc → got = [] ∧ u.regs .a0 = s.regs .a0
  pc : u.mode = .user (pc + 4)
  own : OwnContext l u s.current

section
variable {p : Fin procsMax} {s t u : State} {got got' : List UInt8}

theorem Carries.of_traps (ht : t.traps p = s.traps p) : Carries p s [] t := fun tr htr =>
  ⟨tr, ht.trans htr, rfl, rfl, (List.append_nil _).symm⟩

theorem Carries.trans (h : Carries p s got t) (h' : Carries p t got' u) :
    Carries p s (got ++ got') u := by
  intro tr htr
  obtain ⟨tr₁, htr₁, hregs₁, hpc₁, hgot₁⟩ := h tr htr
  obtain ⟨tr₂, htr₂, hregs₂, hpc₂, hgot₂⟩ := h' tr₁ htr₁
  refine ⟨tr₂, htr₂, hregs₂.trans hregs₁, hpc₂.trans hpc₁, ?_⟩
  rw [hgot₂, hgot₁, List.append_assoc]

/-- What every step preserves and carries, a run does. -/
theorem WithinTrap.carries {ε : Type} {step : State → ε → State → Prop} {call : ε → Option Event}
    (I : State → Prop) (hI : ∀ s e t, I s → step s e t → I t)
    (hc : ∀ s e t, I s → step s e t → ¬ (call e = some .sysret ∧ s.current = p) →
      Carries p s ((call e).elim [] (consumed p s)) t)
    (hs : I s) (hd : WithinTrap step call p s got t) : I t ∧ Carries p s got t := by
  induction hd with
  | nil => exact ⟨hs, .of_traps rfl⟩
  | tail _ hstep he ih => exact ⟨hI _ _ _ ih.1 hstep, ih.2.trans (hc _ _ _ ih.1 hstep he)⟩

end

section
variable {l : Layout} {s t u : State} {e : Event} {p : Fin procsMax} {got : List UInt8}

/-- A trap stays as it is, but for the character the process consumes. -/
theorem step_carries (h : Invariant l s) (hs : Step l s e t)
    (he : ¬ (e = .sysret ∧ s.current = p)) : Carries p s (consumed p s e) t := by
  cases hs with
  | ecall pc hm =>
    intro tr htr
    have hp : p ≠ s.current := by
      rintro rfl
      rw [((running_user hm).mp h.running).2.2.1] at htr
      cases htr
    exact Carries.of_traps (update_of_ne hp _ _) tr htr
  | getc a c rest hm hf hin =>
    by_cases hp : s.current = p
    · intro tr htr
      subst hp
      obtain ⟨-, -, -, tr', htr', hh⟩ := (running_handler hm).mp h.running
      obtain rfl : tr = tr' := Option.some.inj (htr.symm.trans htr')
      refine ⟨{ tr with got := some c }, ?_, rfl, rfl, ?_⟩
      · exact (update_self _ _ _).trans (by rw [htr]; rfl)
      · rw [hh.fresh rfl]
        simp [consumed]
    · rw [consumed, if_neg hp]
      exact .of_traps (update_of_ne (Ne.symm hp) _ _)
  | sysret a regs hm hsp hsaved =>
    exact .of_traps (update_of_ne (fun hp => he ⟨rfl, hp.symm⟩) _ _)
  | _ => exact .of_traps rfl

theorem ecall_trap {pc : Word} (hm : s.mode = .user pc) (hs : Step l s .ecall t) :
    t.traps s.current = some ⟨s.regs, pc, none⟩ := by
  cases hs with
  | ecall pc' hm' =>
    obtain rfl : pc = pc' := Mode.user.inj (hm.symm.trans hm')
    rw [trapFrom_traps, update_self]

theorem during_carries (h : Invariant l s) (hd : During l p s got t) :
    Invariant l t ∧ Carries p s got t := by
  refine hd.carries (Invariant l) (fun _ _ _ h hs => step_invariant h hs) ?_ h
  intro s e t h hs he
  exact step_carries h hs fun hc => he ⟨congrArg some hc.1, hc.2⟩

theorem trap_origin (h : Invariant l s) (hs : Step l s e t) {tr : Trap}
    (htr : t.traps p = some tr) :
    (∃ tr', s.traps p = some tr' ∧ ¬ (some e = some .sysret ∧ s.current = p)) ∨
      (e = .ecall ∧ s.current = p) := by
  cases hs with
  | ecall pc hm =>
    by_cases hp : s.current = p
    · exact .inr ⟨rfl, hp⟩
    · rw [trapFrom_traps, update_of_ne (Ne.symm hp)] at htr
      exact .inl ⟨tr, htr, fun hc => hp hc.2⟩
  | getc a c rest hm hf hin =>
    by_cases hp : s.current = p
    · obtain ⟨-, -, -, tr', htr', -⟩ := (running_handler hm).mp h.running
      rw [hp] at htr'
      exact .inl ⟨tr', htr', fun hc => by cases hc.1⟩
    · dsimp only at htr
      rw [update_of_ne (Ne.symm hp)] at htr
      exact .inl ⟨tr, htr, fun hc => hp hc.2⟩
  | sysret a regs hm hsp hsaved =>
    by_cases hp : s.current = p
    · rw [returnFrom_traps, hp, update_self] at htr
      cases htr
    · rw [returnFrom_traps, update_of_ne (Ne.symm hp)] at htr
      exact .inl ⟨tr, htr, fun hc => hp hc.2⟩
  | _ => exact .inl ⟨tr, htr, fun hc => by cases hc.1⟩

/-- Behind every trap there is an `ecall`, with no return since. -/
theorem reachable_trapped (hr : Reachable l s) {tr : Trap} (htr : s.traps p = some tr) :
    ∃ s₀ s₁ got, Reachable l s₀ ∧ s₀.current = p ∧ Step l s₀ .ecall s₁ ∧
      During l p s₁ got s := by
  induction hr generalizing tr with
  | boot hb =>
    cases hb with
    | mk => cases htr
  | step hr hs ih =>
    rcases trap_origin (reachable_invariant hr) hs htr with ⟨tr', htr', he⟩ | ⟨rfl, hp⟩
    · obtain ⟨s₀, s₁, got, hr₀, hp, h₁, hd⟩ := ih htr'
      exact ⟨s₀, s₁, _, hr₀, hp, h₁, .tail hd hs he⟩
    · exact ⟨_, _, [], hr, hp, hs, .nil _⟩

theorem satpOf_designates {pageTable : ℕ} (ha : pageSize ∣ pageTable)
    (hlt : pageTable < 2 ^ 32) : Designates (satpOf pageTable) pageTable := by
  have hquot : pageTable / pageSize < 2 ^ 60 := (Nat.div_le_self _ _).trans_lt (by omega)
  have hval : (satpOf pageTable).toNat = 8 * 2 ^ 60 + pageTable / pageSize := by
    unfold satpOf satpSv39
    rw [← Nat.shiftLeft_add_eq_or_of_lt hquot, Nat.shiftLeft_eq, BitVec.toNat_ofNat]
    apply Nat.mod_eq_of_lt
    omega
  simp only [pageSize] at ha hval
  constructor
  · rw [hval]
    omega
  · rw [hval]
    simp only [pageSize]
    omega

theorem user_ownContext (h : Invariant l s) {pc : Word} (hm : s.mode = .user pc) :
    OwnContext l s s.current := by
  obtain ⟨-, -, -, hin⟩ := (running_user hm).mp h.running
  have hused : (s.kernel.procs s.current).state ≠ .unused := fun hu => h.current_used hu rfl
  obtain ⟨ha, hlt⟩ := h.roots s.current hused
  constructor
  · rfl
  · rw [hin.sscratch, stackTopWord_toNat]
  · rw [hin.satp]
    exact satpOf_designates ha hlt

theorem return_coherent {pc : Word} (h : Invariant l t) {tr : Trap}
    (htr : t.traps t.current = some tr) (hret : Step l t .sysret u) (hcur : t.current = s.current)
    (hregs : tr.regs = s.regs) (hpc : tr.pc = pc) (hgot : tr.got.toList = got) :
    Coherent l s pc got u := by
  have hu := step_invariant h hret
  cases hret with
  | sysret a regs hm hsp hsaved =>
    obtain ⟨-, -, -, tr', htr', hh⟩ := (running_handler hm).mp h.running
    rw [htr] at htr'
    obtain rfl := Option.some.inj htr'
    have hspec := returnFrom_spec hh hsp
    have hanswered := hh.answered rfl
    have ha0 : (returnFrom t a regs).regs .a0 = (tr.got.map charWord).getD (s.regs .a0) := by
      rw [hspec.regs, ← hregs]
      rfl
    rw [hregs] at hanswered
    constructor
    · intro r hne
      rw [hspec.regs, Trap.value, if_neg hne, hregs]
    · intro hcall
      obtain ⟨c, hsome⟩ := Option.ne_none_iff_exists'.mp (hanswered.mpr hcall)
      rw [hsome] at hgot ha0
      exact ⟨c, hgot.symm, ha0⟩
    · intro hcall
      have hnone : tr.got = none := by
        by_contra hn
        exact hcall (hanswered.mp hn)
      rw [hnone] at hgot ha0
      exact ⟨hgot.symm, ha0⟩
    · rw [hspec.mode, hpc]
    · rw [← hcur, ← returnFrom_current t a regs]
      exact user_ownContext hu hspec.mode

def Waiting (s : State) (p : Fin procsMax) : Prop :=
  (s.current ≠ p ∧ (s.kernel.procs p).state ≠ .unused ∧ s.sched.resume p = .start) ∨
    (s.current = p ∧ s.mode = .ret ∧ s.sched.control = .start)

theorem create_waiting (h : Invariant l s) (hs : Step l s .create t)
    (hnew : (s.kernel.procs p).state = .unused) (hused : (t.kernel.procs p).state ≠ .unused) :
    Waiting t p := by
  cases hs with
  | create image imageSize i t hm ho hc hok =>
    obtain ⟨-, -, hp⟩ := createProcess_cases hc
    change (t.procs p).state ≠ .unused at hused
    have hi : p = i := by
      by_contra hne
      rw [hp, update_of_ne hne] at hused
      exact hused hnew
    subst hi
    exact .inl ⟨(h.current_used hnew).symm, hused, update_self _ _ _⟩

theorem yields_mode {k : Kernel} {caller : Scheduler.ResumePoint} {limit : ℕ} {mode : Mode}
    (hy : Yields l s k caller limit mode) : s.mode ≠ .ret := by
  cases hy with
  | getc a hm => rw [hm]; exact Mode.noConfusion
  | exit a hm => rw [hm]; exact Mode.noConfusion
  | kmain hm => rw [hm]; exact Mode.noConfusion

theorem waiting_sched {m : Mem} (ht : t.sched = withMem s.sched m) (hne : s.current ≠ p)
    (hused : (s.kernel.procs p).state ≠ .unused) (hstart : s.sched.resume p = .start) :
    Waiting t p := by
  refine .inl ⟨?_, ?_, ?_⟩
  · rwa [current_withMem ht]
  · rwa [procs_withMem ht]
  · rwa [ht]

theorem waiting_other (h : Invariant l s) (hne : s.current ≠ p)
    (hused : (s.kernel.procs p).state ≠ .unused) (hstart : s.sched.resume p = .start)
    (hs : Step l s e t) : Waiting t p := by
  cases hs with
  | keep k caller limit mode hy hn =>
    have y := yields_yielding hy h
    refine .inl ⟨?_, ?_, ?_⟩
    · change nextProc k ≠ p
      rw [hn]
      exact hne
    · exact mt (y.unused p).mp hused
    · exact (update_of_ne (Ne.symm hne) _ _).trans hstart
  | switch k caller limit mode r hy hn hr =>
    have y := yields_yielding hy h
    have hresume : update s.sched.resume s.current caller p = .start :=
      (update_of_ne (Ne.symm hne) _ _).trans hstart
    by_cases hp : nextProc k = p
    · refine .inr ⟨hp, rfl, ?_⟩
      rw [← hp] at hresume
      exact hresume
    · exact .inl ⟨hp, mt (y.unused p).mp hused, hresume⟩
  | create image imageSize i t hm ho hc hok =>
    obtain ⟨hfree, -, hprocs⟩ := createProcess_cases hc
    have hp : p ≠ i := by
      rintro rfl
      exact hused (findUnused_spec hfree).1
    refine .inl ⟨hne, ?_, ?_⟩
    · change (t.procs p).state ≠ .unused
      rw [hprocs, update_of_ne hp]
      exact hused
    · exact (update_of_ne hp _ _).trans hstart
  | ecall pc hm => exact waiting_sched (trapFrom_sched s pc) hne hused hstart
  | fault pc hm => exact waiting_sched (trapFrom_sched s pc) hne hused hstart
  | sysret a regs hm hsp hsaved => exact waiting_sched (returnFrom_sched s a regs) hne hused hstart
  | _ => exact .inl ⟨hne, hused, hstart⟩

theorem waiting_current (h : Invariant l s) (hm : s.mode = .ret)
    (hstart : s.sched.control = .start) (hs : Step l s e t) :
    (t.current = s.current ∧ t.mode = .ret ∧ t.sched.control = .start) ∨
      (t.current = s.current ∧ t.mode = .user (BitVec.ofNat 64 userBase)) := by
  have hno : ∀ {m : Mode}, s.mode = m → m = .ret := fun hm' => hm'.symm.trans hm
  cases hs with
  | dispatch regs hm' hra => exact .inr ⟨rfl, rfl⟩
  | input c => exact .inl ⟨rfl, hm, hstart⟩
  | resume i c hm' hc hr =>
    obtain ⟨-, hland⟩ := (running_ret hm).mp h.running
    obtain ⟨rfl, -⟩ := h.resumed hm hc hr
    rw [hstart] at hland
    obtain ⟨-, hnone, -⟩ := hland
    rw [hnone] at hc
    cases hc
  | keep k caller limit mode hy => exact absurd hm (yields_mode hy)
  | switch k caller limit mode r hy => exact absurd hm (yields_mode hy)
  | user pc regs pc' m hm' => cases hno hm'
  | ecall pc hm' => cases hno hm'
  | fault pc hm' => cases hno hm'
  | work a done m hm' => cases hno hm'
  | workMain m hm' => cases hno hm'
  | syscall a hm' => cases hno hm'
  | getc a c rest hm' => cases hno hm'
  | unknown a hm' => cases hno hm'
  | sysret a regs hm' => cases hno hm'
  | create image imageSize i t hm' => cases hno hm'

theorem step_waiting (h : Invariant l s) (hw : Waiting s p) (hs : Step l s e t) :
    Waiting t p ∨ (t.current = p ∧ t.mode = .user (BitVec.ofNat 64 userBase)) := by
  rcases hw with ⟨hne, hused, hstart⟩ | ⟨rfl, hm, hstart⟩
  · exact .inl (waiting_other h hne hused hstart hs)
  · exact (waiting_current h hm hstart hs).imp_left .inr

theorem unstarted_reachable (hr : Reachable l s) (hd : Unstarted l p s t) : Reachable l t := by
  induction hd with
  | nil => exact hr
  | tail _ hs _ ih => exact .step ih hs

theorem unstarted_waiting (hr : Reachable l s) (hw : Waiting s p) (hd : Unstarted l p s t) :
    Waiting t p := by
  induction hd with
  | nil => exact hw
  | tail hd hs hno ih =>
    have h := reachable_invariant (unstarted_reachable hr hd)
    rcases step_waiting h ih hs with hw | ⟨hcur, hm⟩
    · exact hw
    · exact absurd ⟨hcur, _, hm⟩ hno

theorem ret_goes_on (h : Invariant l s) (hm : s.mode = .ret) :
    ∃ e t, Step l s e t ∧ t.current = s.current ∧ t.mode ≠ .ret := by
  obtain ⟨-, hland⟩ := (running_ret hm).mp h.running
  rcases hland.cases with ⟨-, -, -, -, hra⟩ | ⟨c, hc, hr, hs⟩
  · exact ⟨_, _, .dispatch s s.regs hm hra, rfl, Mode.noConfusion⟩
  · refine ⟨_, _, .resume s s.current c hm hc hr, rfl, ?_⟩
    intro hret
    have hcode := hs.code
    dsimp only at hret
    rw [hret] at hcode
    exact hcode

theorem ecall_enters (h : Invariant l s) {pc : Word} (hm : s.mode = .user pc) :
    ∃ t a, Step l s .ecall t ∧ Trapped l s pc t ∧ t.mode = .handler a false ∧
      field t.mem a.frame .a3 = s.regs .a3 := by
  obtain ⟨hi, -, -, hin⟩ := (running_user hm).mp h.running
  obtain ⟨t, ht, hecall⟩ : ∃ t, Trapped l s pc t ∧ Step l s .ecall t :=
    ⟨trapFrom s pc, trapFrom_spec hi hin pc, .ecall s pc hm⟩
  obtain ⟨a, hmode, hh⟩ := ht.handling
  refine ⟨t, a, hecall, ht, hmode, ?_⟩
  rw [field, hh.frame, hh.saved .a3]
  rfl

theorem getc_returns (h : Invariant l s) {pc : Word} (hm : s.mode = .user pc)
    (hcall : s.regs .a3 = sysGetc) {c : UInt8} {rest : List UInt8} (hinput : s.input = c :: rest) :
    ∃ s₁ t u, Step l s .ecall s₁ ∧ Step l s₁ (.getc c) t ∧ During l s.current s₁ [c] t ∧
      t.current = s.current ∧ Step l t .sysret u := by
  obtain ⟨s₁, a, hecall, ht, hmode, hfield⟩ := ecall_enters h hm
  have hcur := current_withMem ht.sched
  obtain ⟨t, hget, hdone, hcur'⟩ : ∃ t, Step l s₁ (.getc c) t ∧ t.mode = .handler a true ∧
      t.current = s.current :=
    ⟨_, .getc s₁ a c rest hmode (hfield.trans hcall) (ht.input.trans hinput), rfl, hcur⟩
  have hd : During l s.current s₁ _ t := (WithinTrap.nil s₁).tail hget (fun hc => by cases hc.1)
  have hgot : [] ++ consumed s.current s₁ (.getc c) = [c] := by
    simp only [consumed, hcur, if_true, List.nil_append]
  rw [Option.elim_some, hgot] at hd
  exact ⟨s₁, t, _, hecall, hget, hd, hcur', .sysret t a a.entry hdone rfl fun _ _ _ => rfl⟩

theorem callRegs_exist (l : Layout) (prev next : Fin procsMax) {limit : ℕ}
    (hlow : stackLow l prev + 104 ≤ limit) (hhigh : limit < 2 ^ 64) :
    ∃ r, CallRegs l prev next limit r := by
  have b := layout_bounds l prev
  have b' := layout_bounds l next
  have hue : kernelBase ≤ l.userEntry := l.userEntry_inside.1
  have hnat : ∀ n, n < 2 ^ 64 → (BitVec.ofNat 64 n).toNat = n := fun n hn => by
    rw [BitVec.toNat_ofNat, Nat.mod_eq_of_lt hn]
  let regs : Reg → Word
    | .a0 => BitVec.ofNat 64 (l.spAddr prev)
    | .a1 => BitVec.ofNat 64 (l.spAddr next)
    | .sp => BitVec.ofNat 64 limit
    | _ => 0
  refine ⟨regs, ?_⟩
  constructor
  · exact hnat _ (by omega)
  · exact hnat _ (by omega)
  · exact hlow.trans_eq (hnat _ hhigh).symm
  · exact (hnat _ hhigh).le
  · change 0 ≠ l.userEntry
    simp only [kernelBase] at hue
    omega

theorem yields_callRegs (h : Invariant l s) {k : Kernel} {caller : Scheduler.ResumePoint}
    {limit : ℕ} {mode : Mode} (hy : Yields l s k caller limit mode) (next : Fin procsMax) :
    ∃ r, CallRegs l s.current next limit r := by
  have hlimit : limit = codeTop l s.current := by
    cases hy with
    | getc a hm hf hin =>
      obtain ⟨-, -, hi, tr, -, hh⟩ := (running_handler hm).mp h.running
      rw [hh.entry, (codeTop_user l hi).1]
    | exit a hm hf =>
      obtain ⟨-, -, hi, tr, -, hh⟩ := (running_handler hm).mp h.running
      rw [hh.entry, (codeTop_user l hi).1]
    | kmain hm => exact (if_pos ((running_kmain hm).mp h.running).2.1).symm
  have hb := codeTop_bounds l s.current
  exact callRegs_exist l s.current next (by omega) (by omega)

theorem yield_switches (h : Invariant l s) {k : Kernel} {caller : Scheduler.ResumePoint}
    {limit : ℕ} {mode : Mode} (hy : Yields l s k caller limit mode)
    (hn : nextProc k ≠ s.current) : ∃ t, Step l s .yield t ∧ Switched s k caller mode t := by
  obtain ⟨r, hr⟩ := yields_callRegs h hy (nextProc k)
  exact ⟨_, .switch s k caller limit mode r hy hn hr, rfl, rfl, rfl, rfl, rfl, ⟨_, rfl, rfl⟩,
    rfl, rfl⟩

theorem ret_dispatches (h : Invariant l s) (hm : s.mode = .ret) (hstart : s.sched.control = .start)
    (regs : Reg → Word) : Step l s .dispatch (dispatched s regs) := by
  obtain ⟨-, hland⟩ := (running_ret hm).mp h.running
  rw [hstart] at hland
  exact .dispatch s regs hm hland.2.2.2

theorem ret_resumes (h : Invariant l s) (hm : s.mode = .ret) {c : Call}
    (hc : s.calls s.current = some c) :
    Step l s .resume { s with mode := c.mode, calls := update s.calls s.current none } := by
  obtain ⟨-, hland⟩ := (running_ret hm).mp h.running
  rcases hland.cases with ⟨-, -, hnone, -⟩ | ⟨c', hc', hr, -⟩
  · rw [hnone] at hc
    cases hc
  · obtain rfl := Option.some.inj (hc.symm.trans hc')
    exact .resume s s.current c hm hc hr

theorem first_entry (h : Invariant l s) (hm : s.mode = .kmain)
    (hnext : nextProc s.kernel ≠ s.current)
    (hstart : s.sched.resume (nextProc s.kernel) = .start) (regs : Reg → Word) :
    ∃ t, Step l s .yield t ∧ Switched s s.kernel .yieldReturn .kmain t ∧
      Step l t .dispatch (dispatched t regs) := by
  obtain ⟨t, hs, ht⟩ := yield_switches h (.kmain hm) hnext
  have hcontrol : t.sched.control = .start := by
    rw [ht.control, update_of_ne hnext, hstart]
  exact ⟨t, hs, ht, ret_dispatches (step_invariant h hs) ht.ret hcontrol regs⟩

theorem created_after_boot (l : Layout) (input : List UInt8) :
    ∃ s i, Reachable l s ∧ s.mode = .kmain ∧ s.input = input ∧ i ≠ 0 ∧
      Registered l 1 {i} 0 s.sched ∧ ∀ j, s.sched.resume j = .start := by
  have hk := kallocPage_allocator (heapOf l) []
  have hboot := bootTable_owned l
  obtain ⟨k, hinit, h0⟩ := initProc_alone (t := Scheduler.bootTable l) hk noProcs_unused hboot rfl
  obtain ⟨s, hb, hsched, hm, hinput⟩ : ∃ s, Booted l s ∧ s.sched = Scheduler.start k ∧
      s.mode = .kmain ∧ s.input = input :=
    ⟨_, .mk (Scheduler.bootTable l) k (fun _ => 0) (fun _ => 0) input noProcs_unused ⟨[], hboot⟩ hinit
      h0.owned.zero_notMem, rfl, rfl, rfl⟩
  rw [← hsched] at h0
  obtain ⟨i, σ, hi, hcreate, h1⟩ := registered_create hk h0 (by decide)
  cases hcreate with
  | create image imageSize j t hc =>
    have hs := Step.create s 0 0 j t hm ⟨[], h0.owned⟩ hc h1.owned.zero_notMem
    refine ⟨_, i, (Reachable.boot hb).step hs, hm, hinput, hi, h1, fun q => ?_⟩
    change update s.sched.resume j .start q = .start
    by_cases hq : q = j
    · rw [hq, update_self]
    · rw [update_of_ne hq, hsched]
      rfl

theorem user_after_boot (l : Layout) (regs : Reg → Word) (input : List UInt8) :
    ∃ s, Reachable l s ∧ s.regs = regs ∧ s.input = input ∧
      s.mode = .user (BitVec.ofNat 64 userBase) := by
  obtain ⟨s, i, hr, hm, hinput, hi, hreg, hstart⟩ := created_after_boot l input
  have hcur : s.current = 0 := hreg.current
  have hnext : nextProc s.kernel ≠ s.current := by
    rw [hcur]
    rcases Scheduler.nextProc_cases s.kernel with hrun | ⟨-, hnone⟩
    · exact ((hreg.eligible _).mp hrun).1
    · exact absurd ((hreg.eligible i).mpr ⟨hi, Finset.mem_singleton_self i⟩) (hnone i)
  obtain ⟨t, hyield, ht, hdispatch⟩ :=
    first_entry (reachable_invariant hr) hm hnext (hstart _) regs
  exact ⟨_, (hr.step hyield).step hdispatch, rfl, ht.input.trans hinput, rfl⟩

structure Coherence (l : Layout) (s : State) : Prop where
  returns : ∀ pc s₁ got t u, s.mode = .user pc → Step l s .ecall s₁ →
    During l s.current s₁ got t → t.current = s.current → Step l t .sysret u →
    Coherent l s pc got u
  trapped : ∀ u, Step l s .sysret u → ∃ s₀ s₁ got, Reachable l s₀ ∧
    s₀.current = s.current ∧ Step l s₀ .ecall s₁ ∧ During l s.current s₁ got s
  first : ∀ p s₁ t e u, Step l s .create s₁ → (s.kernel.procs p).state = .unused →
    (s₁.kernel.procs p).state ≠ .unused → Unstarted l p s₁ t → Step l t e u → InUser u p →
    u.mode = .user (BitVec.ofNat 64 userBase) ∧ OwnContext l u p
  goes_on : s.mode = .ret → ∃ e t, Step l s e t ∧ t.current = s.current ∧ t.mode ≠ .ret

/-- Whatever the processes do: a return matches its trap, and a new process starts at
`USER_BASE`. -/
theorem trap_coherence (hr : Reachable l s) : Coherence l s := by
  have h := reachable_invariant hr
  constructor
  · intro pc s₁ got t u hm hs hd hc hret
    obtain ⟨ht, hcarries⟩ := during_carries (step_invariant h hs) hd
    obtain ⟨tr, htr, hregs, hpc, hgot⟩ := hcarries _ (ecall_trap hm hs)
    exact return_coherent ht (hc ▸ htr) hret hc hregs hpc hgot
  · intro u hret
    cases hret with
    | sysret a regs hm hsp hsaved =>
      obtain ⟨-, -, -, tr, htr, -⟩ := (running_handler hm).mp h.running
      exact reachable_trapped hr htr
  · intro p s₁ t e u hs hnew hused hd hstep hin
    have hr₁ := hr.step hs
    have hrt := unstarted_reachable hr₁ hd
    have hw := unstarted_waiting hr₁ (create_waiting h hs hnew hused) hd
    obtain ⟨hcur, pc, hpc⟩ := hin
    have hu := reachable_invariant (hrt.step hstep)
    rcases step_waiting (reachable_invariant hrt) hw hstep with (⟨hne, -⟩ | ⟨-, hret, -⟩) | ⟨-, hm⟩
    · exact absurd hcur hne
    · rw [hret] at hpc
      cases hpc
    · refine ⟨hm, ?_⟩
      have hown := user_ownContext hu hm
      rwa [hcur] at hown
  · exact ret_goes_on h

end

/-- The first process asks for a character, and the console has one. -/
theorem trap_coherence_first_getc : ∃ s u, Coherence sampleLayout s ∧
    s.regs .a3 = sysGetc ∧ s.input = [120] ∧
    Coherent sampleLayout s (BitVec.ofNat 64 userBase) [120] u := by
  obtain ⟨s, hr, hregs, hinput, hm⟩ :=
    user_after_boot sampleLayout (fun r => if r = .a3 then sysGetc else 0) [120]
  have hcall : s.regs .a3 = sysGetc := by
    rw [hregs]
    rfl
  obtain ⟨s₁, t, u, hecall, -, hd, hcur, hret⟩ :=
    getc_returns (reachable_invariant hr) hm hcall hinput
  have hcoherent := trap_coherence hr
  exact ⟨s, u, hcoherent, hcall, hinput, hcoherent.returns _ s₁ _ t u hm hecall hd hcur hret⟩

end TrapCoherence
